import Candcpp.Cpp.Exec

/-!
# The size of the largest bag

`Solution::minimumSize` of `1760.cpp` searches for the least size `y` such that the bags can be
split into bags of at most `y` balls with the operations that there are. For every `y` that it tries
it adds up the operations that are needed in an `int`, and the comment before it asks whether this
can overflow: *it did not, the submission was accepted, but an overflow has to be considered*.

The search tries `⌊(m + 1) / 2⌋` first, where `m` is the largest bag, and half of it as long as the
operations suffice; after that it only tries greater sizes, for which less operations are needed. By
`Candcpp.MinimumSize.mul_needed_le`, half of an even size needs about twice as many operations,
which is an `int`; half of an odd size `2 * q + 1` needs more, but only for `q ≤ 6` so many that the
sum overflows. **So the sum overflows exactly if the search passes from `2 * q + 1` to such a `q`,
and more than `2 ^ 31 - 1` operations are needed there**
(`Candcpp.MinimumSize.minimumSize_returns_iff`).
-/

namespace Candcpp

open Cpp

namespace MinimumSize

/-! ### The code

The function is written for any arithmetic, which gives the value of an expression: that of `int`
(`Candcpp.Cpp.int`), or of integers without bounds (`pure`). -/

section Code

variable (arith : ℤ → Exec ℤ)

/-- `for (int num : nums) p += (num - 1) / y`. -/
def operations (y : ℤ) : List ℤ → ℤ → Exec ℤ
  | [], p => pure p
  | num :: nums, p => do
    let others ← arith (num - 1)
    let p ← arith (p + others.tdiv y)
    operations y nums p

/-- The `while` loop; `ans` is none as long as it has not been assigned. -/
def search (nums : List ℤ) (maxOperations lower_bound up_bound : ℤ) (ans : Option ℤ) :
    Result (Option ℤ) :=
  show Exec (Option ℤ) from do
    let +zeta search : type_of% search := by apply search
    if lower_bound ≤ up_bound then
      let sum ← arith (lower_bound + up_bound)
      let y := sum.tdiv 2
      let p ← operations arith y nums 0
      if p ≤ maxOperations then
        let up_bound ← arith (y - 1)
        (search nums maxOperations lower_bound up_bound (some y) : Exec (Option ℤ))
      else
        let lower_bound ← arith (y + 1)
        (search nums maxOperations lower_bound up_bound ans : Exec (Option ℤ))
    else pure ans
partial_fixpoint

/-- `minimumSize`. The largest element of an empty vector does not exist. -/
def minimumSize (nums : List ℤ) (maxOperations : ℤ) : Result (Option ℤ) :=
  match nums.max? with
  | none => (throw .outOfRange : Exec (Option ℤ))
  | some m => search arith nums maxOperations 1 m none

end Code

/-- The limits that are written above the class. -/
structure Limits (nums : List ℤ) (maxOperations : ℤ) : Prop where
  nonempty : 1 ≤ nums.length
  length_le : nums.length ≤ 100000
  one_le : ∀ num ∈ nums, 1 ≤ num
  le : ∀ num ∈ nums, num ≤ 1000000000
  one_le_operations : 1 ≤ maxOperations
  operations_le : maxOperations ≤ 1000000000

/-! ### The operations that are needed -/

/-- The operations that are needed for bags of at most `y` balls. -/
def needed (nums : List ℤ) (y : ℤ) : ℤ := (nums.map fun num => (num - 1) / y).sum

variable {nums : List ℤ} {maxOperations : ℤ} {y y' q d p r : ℤ}

theorem needed_cons (num : ℤ) (nums : List ℤ) (y : ℤ) :
    needed (num :: nums) y = (num - 1) / y + needed nums y := by
  simp [needed]

theorem needed_nonneg (h : ∀ num ∈ nums, 1 ≤ num) (hy : 1 ≤ y) : 0 ≤ needed nums y := by
  refine List.sum_nonneg fun k hk => ?_
  obtain ⟨num, hnum, rfl⟩ := List.mem_map.mp hk
  have := h num hnum
  exact Int.ediv_nonneg (by omega) (by omega)

/-- Greater bags need less operations. -/
theorem needed_anti (h : ∀ num ∈ nums, 1 ≤ num) (hy : 1 ≤ y) (hyy : y ≤ y') :
    needed nums y' ≤ needed nums y := by
  induction nums with
  | nil => exact le_rfl
  | cons num nums ih =>
    rw [List.forall_mem_cons] at h
    have hquot : (num - 1) / y' ≤ (num - 1) / y := by
      refine Int.le_ediv_of_mul_le (by omega) ?_
      have hnonneg : 0 ≤ (num - 1) / y' := Int.ediv_nonneg (by omega) (by omega)
      calc (num - 1) / y' * y ≤ (num - 1) / y' * y' := Int.mul_le_mul_of_nonneg_left hyy hnonneg
        _ ≤ num - 1 := Int.ediv_mul_le _ (by omega)
    have hrest := ih h.2
    simp only [needed_cons]
    omega

/-- **What is needed for two sizes**, up to the remainders of the divisions. -/
theorem mul_needed_le (hq : 1 ≤ q) (hd : 1 ≤ d) (nums : List ℤ) :
    q * needed nums q ≤ d * needed nums d + (d - 1) * nums.length := by
  induction nums with
  | nil => simp [needed]
  | cons num nums ih =>
    have hlow : q * ((num - 1) / q) ≤ num - 1 := Int.mul_ediv_self_le (by omega)
    -- the remainder is at most `d - 1`
    have hhigh : num - 1 ≤ d * ((num - 1) / d) + (d - 1) := by
      have hmod := Int.mul_ediv_add_emod (num - 1) d
      have hlt := Int.emod_lt_of_pos (num - 1) (show 0 < d by omega)
      omega
    simp only [needed_cons, List.length_cons, mul_add, Nat.cast_add, Nat.cast_one, mul_one]
    omega

/-- Half of an even size needs about twice as many operations. -/
theorem needed_half_even (hlim : Limits nums maxOperations) (hq : 1 ≤ q)
    (h : needed nums (2 * q) ≤ maxOperations) : needed nums q ≤ intMax := by
  have hmul := mul_needed_le hq (show 1 ≤ 2 * q by omega) nums
  have hlen : (nums.length : ℤ) ≤ 100000 := by exact_mod_cast hlim.length_le
  have hle := hlim.operations_le
  by_contra hgt
  simp only [intMax] at hgt
  nlinarith

/-- Half of an odd size needs more than that, but not too many if it is not small. -/
theorem needed_half_odd (hlim : Limits nums maxOperations) (hq : 7 ≤ q)
    (h : needed nums (2 * q + 1) ≤ maxOperations) : needed nums q ≤ intMax := by
  have hmul := mul_needed_le (show 1 ≤ q by omega) (show 1 ≤ 2 * q + 1 by omega) nums
  have hlen : (nums.length : ℤ) ≤ 100000 := by exact_mod_cast hlim.length_le
  have hle := hlim.operations_le
  by_contra hgt
  simp only [intMax] at hgt
  nlinarith

/-! ### The loops -/

/-- **The sum is computed** exactly if it is an `int`: it only grows. -/
theorem operations_eq_pure (hone : ∀ num ∈ nums, 1 ≤ num) (hle : ∀ num ∈ nums, num ≤ 1000000000)
    (hy : 1 ≤ y) (hp : 0 ≤ p) (hp' : p ≤ intMax) :
    operations int y nums p = pure r ↔ p + needed nums y ≤ intMax ∧ p + needed nums y = r := by
  induction nums generalizing p with
  | nil =>
    rw [operations, Exec.pure_inj]
    simp [needed, hp']
  | cons num nums ih =>
    rw [List.forall_mem_cons] at hone hle
    have hnum : int (num - 1) = pure (num - 1) :=
      int_eq (by simp only [intMin]; omega) (by simp only [intMax]; omega)
    have hquot : 0 ≤ (num - 1) / y := Int.ediv_nonneg (by omega) (by omega)
    have hrest := needed_nonneg hone.2 hy
    rw [operations, hnum, pure_bind, Int.tdiv_eq_ediv_of_nonneg (by omega), Exec.bind_eq_pure,
      needed_cons, ← add_assoc]
    constructor
    · rintro ⟨p', hsum, hops⟩
      obtain ⟨⟨-, hmax⟩, rfl⟩ := int_eq_pure.mp hsum
      exact (ih hone.2 hle.2 (by omega) hmax).mp hops
    · intro h
      have hmax : p + (num - 1) / y ≤ intMax := by omega
      have hmin : intMin ≤ p + (num - 1) / y := by simp only [intMin]; omega
      exact ⟨_, int_eq hmin hmax, (ih hone.2 hle.2 (by omega) hmax).mpr h⟩

/-- The function returns. -/
def Returns (e : Result (Option ℤ)) : Prop := ∃ ans, e = (pure ans : Exec (Option ℤ))

variable {lower_bound up_bound : ℤ}

theorem search_stop (h : up_bound < lower_bound) (arith : ℤ → Exec ℤ) (nums : List ℤ)
    (maxOperations : ℤ) (ans : Option ℤ) :
    Returns (search arith nums maxOperations lower_bound up_bound ans) := by
  refine ⟨ans, ?_⟩
  rw [search, if_neg (not_le.mpr h)]

/-- **A turn of the search.** -/
theorem search_turn (hlim : Limits nums maxOperations) (hlow : 1 ≤ lower_bound)
    (hle : lower_bound ≤ up_bound) (hup : up_bound ≤ 1000000000)
    (hy : 2 * y ≤ lower_bound + up_bound) (hy' : lower_bound + up_bound ≤ 2 * y + 1)
    (ans : Option ℤ) :
    Returns (search int nums maxOperations lower_bound up_bound ans) ↔
      needed nums y ≤ intMax ∧
        if needed nums y ≤ maxOperations then
          Returns (search int nums maxOperations lower_bound (y - 1) (some y))
        else Returns (search int nums maxOperations (y + 1) up_bound ans) := by
  have hmid : (lower_bound + up_bound).tdiv 2 = y := by
    rw [Int.tdiv_eq_ediv_of_nonneg (by omega)]
    omega
  have hint : ∀ x : ℤ, 0 ≤ x → x ≤ 2000000000 → int x = pure x := fun x h0 h1 =>
    int_eq (by simp only [intMin]; omega) (by simp only [intMax]; omega)
  have hops := fun r => operations_eq_pure (r := r) hlim.one_le hlim.le (show 1 ≤ y by omega)
    le_rfl (show (0 : ℤ) ≤ intMax by decide)
  rw [search, if_pos hle, hint _ (by omega) (by omega), pure_bind, hmid]
  simp only [zero_add] at hops
  constructor
  · rintro ⟨ans', h⟩
    obtain ⟨p, hp, h⟩ := Exec.bind_eq_pure.mp h
    obtain ⟨hmax, rfl⟩ := (hops p).mp hp
    refine ⟨hmax, ?_⟩
    split_ifs at h ⊢
    · rw [hint _ (by omega) (by omega), pure_bind] at h
      exact ⟨ans', h⟩
    · rw [hint _ (by omega) (by omega), pure_bind] at h
      exact ⟨ans', h⟩
  · rintro ⟨hmax, h⟩
    dsimp only
    rw [(hops _).mpr ⟨hmax, rfl⟩, pure_bind]
    split_ifs at h ⊢
    · rw [hint _ (by omega) (by omega), pure_bind]
      exact h
    · rw [hint _ (by omega) (by omega), pure_bind]
      exact h

/-- **Once the sum is an `int`**, it stays one for greater sizes: the search returns. -/
theorem search_returns (hlim : Limits nums maxOperations) (hlow : 1 ≤ lower_bound)
    (hup : up_bound ≤ 1000000000) (h : needed nums lower_bound ≤ intMax) (ans : Option ℤ) :
    Returns (search int nums maxOperations lower_bound up_bound ans) := by
  induction hn : (up_bound + 1 - lower_bound).toNat using Nat.strong_induction_on
    generalizing lower_bound up_bound ans with
  | _ n ih =>
    by_cases hle : lower_bound ≤ up_bound
    · have hy : 2 * ((lower_bound + up_bound) / 2) ≤ lower_bound + up_bound := by omega
      have hfits : ∀ z, lower_bound ≤ z → needed nums z ≤ intMax := fun z hz =>
        (needed_anti hlim.one_le hlow hz).trans h
      rw [search_turn hlim hlow hle hup hy (by omega) ans]
      refine ⟨hfits _ (by omega), ?_⟩
      split_ifs
      · exact ih _ (by omega) hlow (by omega) h _ rfl
      · exact ih _ (by omega) (by omega) hup (hfits _ (by omega)) _ rfl
    · exact search_stop (not_le.mp hle) _ _ _ _

/-! ### The sizes that are tried -/

/-- When a size is halved over and over, and the operations suffice for an odd size `2 * q + 1` on
the way that is at most `13`, then the operations for `q` can be added up in an `int`. -/
def HalvesFit (nums : List ℤ) (maxOperations : ℤ) (v : ℕ) : Prop :=
  ∀ q e : ℕ, 1 ≤ q → q ≤ 6 → v / 2 ^ e = 2 * q + 1 →
    needed nums (2 * q + 1) ≤ maxOperations → needed nums q ≤ intMax

theorem HalvesFit.half {v : ℕ} (h : HalvesFit nums maxOperations v) :
    HalvesFit nums maxOperations (v / 2) := by
  intro q e hq hq' hv
  refine h q (e + 1) hq hq' ?_
  rwa [Nat.pow_succ', ← Nat.div_div_eq_div_mul]

/-- The operations for half of a size can be added up if they suffice for the size. -/
theorem HalvesFit.needed_half_le {v : ℕ} (h : HalvesFit nums maxOperations v)
    (hlim : Limits nums maxOperations) (hv : 2 ≤ v) (hneeded : needed nums v ≤ maxOperations) :
    needed nums (v / 2 : ℕ) ≤ intMax := by
  rcases Nat.even_or_odd' v with ⟨q, rfl | rfl⟩
  · rw [Nat.mul_div_cancel_left q (by omega)]
    exact needed_half_even hlim (by omega) (by exact_mod_cast hneeded)
  · have hodd : needed nums (2 * q + 1) ≤ maxOperations := by exact_mod_cast hneeded
    rw [show (2 * q + 1) / 2 = q by omega]
    by_cases hq : q ≤ 6
    · exact h q 0 (by omega) hq (by simp) hodd
    · exact needed_half_odd hlim (by omega) hodd

/-- **The search below a size for which the operations suffice**: it halves the size as long as
they do. -/
theorem search_halves (hlim : Limits nums maxOperations) {v : ℕ} (hv : v ≤ 1000000001)
    (ans : Option ℤ) :
    (needed nums v ≤ maxOperations →
        Returns (search int nums maxOperations 1 ((v : ℤ) - 1) ans)) ↔
      HalvesFit nums maxOperations v := by
  induction v using Nat.strong_induction_on generalizing ans with
  | _ v ih =>
    rcases Nat.lt_or_ge v 2 with hlt | hge
    · refine iff_of_true (fun _ => search_stop (by omega) _ _ _ _) fun q e hq _ hodd => ?_
      have hle := Nat.div_le_self v (2 ^ e)
      omega
    · have hturn := search_turn hlim le_rfl (show (1 : ℤ) ≤ (v : ℤ) - 1 by omega) (by omega)
        (show 2 * ((v / 2 : ℕ) : ℤ) ≤ 1 + ((v : ℤ) - 1) by omega) (by omega) ans
      have hhalf := fun ans => ih (v / 2) (by omega) (by omega) ans
      rw [hturn]
      constructor
      -- the greater sizes on the way need less operations, so that the search comes to `2 * q + 1`
      · intro h q e hq hq' hodd hneeded
        have hle : (2 * q + 1 : ℕ) ≤ v := hodd ▸ Nat.div_le_self v (2 ^ e)
        have hv' : needed nums v ≤ maxOperations :=
          (needed_anti hlim.one_le (by omega) (by exact_mod_cast hle)).trans hneeded
        obtain ⟨hfit, hnext⟩ := h hv'
        cases e with
        | zero =>
          rw [pow_zero, Nat.div_one] at hodd
          rwa [hodd, show (2 * q + 1) / 2 = q by omega] at hfit
        | succ e =>
          rw [Nat.pow_succ', ← Nat.div_div_eq_div_mul] at hodd
          refine (hhalf (some ((v / 2 : ℕ) : ℤ))).mp (fun hsuffices => ?_) q e hq hq' hodd hneeded
          rwa [if_pos hsuffices] at hnext
      · intro h hneeded
        have hfit := h.needed_half_le hlim hge hneeded
        refine ⟨hfit, ?_⟩
        split_ifs with hsuffices
        · exact (hhalf _).mpr h.half hsuffices
        -- from here on only greater sizes are tried
        · refine search_returns hlim (by omega) (by omega) ?_ ans
          exact (needed_anti hlim.one_le (by omega) (by omega)).trans hfit

/-- No operation is needed for bags that are as great as the largest one. -/
theorem needed_eq_zero (hone : ∀ num ∈ nums, 1 ≤ num) (hle : ∀ num ∈ nums, num ≤ y) :
    needed nums y = 0 := by
  refine List.sum_eq_zero fun k hk => ?_
  obtain ⟨num, hnum, rfl⟩ := List.mem_map.mp hk
  have h1 := hone num hnum
  have h2 := hle num hnum
  exact Int.ediv_eq_zero_of_lt (by omega) (by omega)

/-- The operations for the sizes that are tried can be added up: the largest bag and one more ball
is halved over and over. -/
def Fits (nums : List ℤ) (maxOperations : ℤ) : Prop :=
  ∀ m : ℕ, nums.max? = some (m : ℤ) → HalvesFit nums maxOperations (m + 1)

theorem returns_iff_halvesFit (hlim : Limits nums maxOperations) {m : ℕ}
    (hm : nums.max? = some (m : ℤ)) :
    Returns (minimumSize int nums maxOperations) ↔ HalvesFit nums maxOperations (m + 1) := by
  obtain ⟨hmem, hmax⟩ := List.max?_eq_some_iff.mp hm
  have hm' : m ≤ 1000000000 := by exact_mod_cast hlim.le m hmem
  rw [← search_halves hlim (show m + 1 ≤ 1000000001 by omega) none]
  -- the search starts as if `m + 1` had been tried, for which no operation is needed
  have hzero : needed nums (m + 1 : ℕ) = 0 :=
    needed_eq_zero hlim.one_le fun num hnum => (hmax num hnum).trans (by omega)
  have hsuffices : needed nums (m + 1 : ℕ) ≤ maxOperations :=
    hzero.le.trans (by have := hlim.one_le_operations; omega)
  rw [minimumSize, hm, forall_prop_of_true hsuffices, Nat.cast_succ, add_sub_cancel_right]

/-- **When the sum does not overflow**: within the limits `minimumSize` returns, without a value
that is no `int`, exactly if the operations can be added up for each half `q ≤ 6` of an odd size
that is tried and for which they suffice. -/
theorem minimumSize_returns_iff (hlim : Limits nums maxOperations) :
    Returns (minimumSize int nums maxOperations) ↔ Fits nums maxOperations := by
  have hne : nums ≠ [] := List.length_pos_iff.mp hlim.nonempty
  obtain ⟨m, hm⟩ := Option.isSome_iff_exists.mp (List.isSome_max?_of_ne_nil hne)
  obtain ⟨hmem, -⟩ := List.max?_eq_some_iff.mp hm
  lift m to ℕ using (hlim.one_le m hmem).trans' (by decide)
  rw [returns_iff_halvesFit hlim hm]
  refine ⟨fun h m' hm' => ?_, fun h => h m hm⟩
  rwa [Nat.cast_injective (Option.some.inj (hm'.symm.trans hm))]

/-- One bag of nine balls. -/
theorem minimumSize_returns_iff_nine : Returns (minimumSize int [9] 2) := by
  have hlim : Limits [9] 2 := ⟨by decide, by decide, by decide, by decide, by decide, by decide⟩
  refine (minimumSize_returns_iff hlim).mpr fun m hm q e hq _ _ _ => ?_
  have hle : (9 - 1) / (q : ℤ) ≤ 8 := Int.ediv_le_self _ (by decide)
  simp only [needed, List.map_cons, List.map_nil, List.sum_cons, List.sum_nil, intMax]
  omega

/-- Three bags of a thousand million balls: a thousand million operations suffice for bags of three
balls, and bags of one ball are tried next. -/
theorem not_minimumSize_returns : ¬ ∀ nums maxOperations, Limits nums maxOperations →
    Returns (minimumSize int nums maxOperations) := by
  intro h
  have hlim : Limits [1000000000, 1000000000, 1000000000] 1000000000 :=
    ⟨by decide, by decide, by decide, by decide, by decide, by decide⟩
  have hfit := (returns_iff_halvesFit (m := 1000000000) hlim rfl).mp (h _ _ hlim)
  exact absurd (hfit 1 28 le_rfl (by decide) (by decide) (by decide)) (by decide)

end MinimumSize

end Candcpp
