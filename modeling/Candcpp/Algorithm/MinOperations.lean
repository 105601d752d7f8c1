import Candcpp.Cpp.Exec
import Candcpp.Order.GcdSteps

/-!
# The least number of operations to make all elements one

The program of `2654.cpp`. An operation replaces one of two neighbouring elements by their greatest
common divisor. If a number divides all elements it divides them after any operations, and the
program returns `-1`. If there are ones, all others take an operation each. If there is none, a
shortest window of which the greatest common divisor is `1` is made a `1` first: the program tries
the starts of the windows one after the other, and stops at the first end for each of them.

That this is the least number is a matter of the operations alone (`Candcpp.isLeast_toOnes_of_mem`,
`Candcpp.isLeast_toOnes_of_window`). The sum `min_size + n` is greater than the result by one, and
it overflows where the window and the vector have more than 2^31 elements together. So **the
program is right exactly if no window has the greatest common divisor `1`, or one that is not that
long** (`Candcpp.MinOperations.minOperations_iff`).

The elements are positive, so that they are natural numbers here.
-/

namespace Candcpp

open Cpp

namespace MinOperations

/-! ### The code -/

/-- `gcd`. -/
def gcd (a b : ℕ) : ℕ :=
  if b = 0 then
    a
  else
    gcd b (a % b)
termination_by b
decreasing_by exact Nat.mod_lt _ (Nat.pos_of_ne_zero ‹_›)

/-- `for (int num : nums)`, which leaves behind `g` and `cnt1`. -/
def countLoop : List ℕ → ℕ → ℤ → Exec (ℕ × ℤ)
  | [], g, cnt1 => pure (g, cnt1)
  | num :: nums, g, cnt1 => do
    let g := gcd g num
    if num = 1 then
      let cnt1 ← int (cnt1 + 1)
      countLoop nums g cnt1
    else
      countLoop nums g cnt1

/-- `for (int j = i; j < n; ++j)`, which leaves behind `min_size`. -/
def endLoop (nums : List ℕ) (n i j : ℤ) (g : ℕ) (minSize : ℤ) : Exec ℤ := do
  let +zeta endLoop : type_of% endLoop := by apply endLoop
  if j < n then
    let x ← nth nums j
    let g := gcd g x
    if g = 1 then
      pure (min minSize (j - i))
    else
      endLoop nums n i (j + 1) g minSize
  else
    pure minSize
partial_fixpoint

/-- `for (int i = 0; i < n; ++i)`, which leaves behind `min_size`. -/
def startLoop (nums : List ℕ) (n i minSize : ℤ) : Exec ℤ := do
  let +zeta startLoop : type_of% startLoop := by apply startLoop
  if i < n then
    let minSize ← endLoop nums n i i 0 minSize
    startLoop nums n (i + 1) minSize
  else
    pure minSize
partial_fixpoint

/-- `minOperations`. -/
def minOperations (nums : List ℕ) : Exec ℤ := do
  let n := intOfSize nums.length
  let (g, cnt1) ← countLoop nums 0 0
  if g > 1 then
    pure (-1)
  else if cnt1 ≠ 0 then
    int (n - cnt1)
  else
    let minSize ← startLoop nums n 0 n
    let x ← int (minSize + n)
    int (x - 1)

/-! ### The least number -/

/-- **The program is right**: it returns the least number of operations, or `-1` if there is none.
-/
def Right (nums : List ℕ) : Prop := ∃ r : ℤ, minOperations nums = pure r ∧
  ((∃ t : ℕ, IsLeast (toOnes nums) t ∧ r = t) ∨ toOnes nums = ∅ ∧ r = -1)

/-- No window has the greatest common divisor `1`, or one that has not more than 2^31 elements
together with the vector. -/
def Fits (nums : List ℕ) : Prop := goodLengths (Coprime nums) nums.length = ∅ ∨
  ∃ m ∈ goodLengths (Coprime nums) nums.length, (m : ℤ) + nums.length ≤ intMax + 1

variable {nums post : List ℕ} {g g' i j k m n t N : ℕ} {c c' ans minSize : ℤ}

theorem gcd_eq (a b : ℕ) : gcd a b = Nat.gcd a b := by
  fun_induction gcd a b with
  | case1 a => exact (Nat.gcd_zero_right a).symm
  | case2 a b _ ih => rw [ih, Nat.gcd_comm, ← Nat.gcd_rec, Nat.gcd_comm]

/-- **What the first loop leaves behind**, if it does not overflow. -/
theorem countLoop_eq_pure (h : countLoop post g c = pure (g', c')) :
    g' = Nat.gcd g (Multiset.gcd (post : Multiset ℕ)) ∧ c' = c + post.count 1 := by
  induction post generalizing g c with
  | nil =>
    obtain ⟨rfl, rfl⟩ := Prod.mk.inj (Exec.pure_inj.mp h)
    rw [Multiset.coe_nil, Multiset.gcd_zero, Nat.gcd_zero_right, List.count_nil, Nat.cast_zero,
      add_zero]
    exact ⟨rfl, rfl⟩
  | cons num post ih =>
    have hgcd : Nat.gcd (gcd g num) (Multiset.gcd (post : Multiset ℕ)) =
        Nat.gcd g (Multiset.gcd ((num :: post : List ℕ) : Multiset ℕ)) := by
      rw [gcd_eq, Nat.gcd_assoc, ← Multiset.cons_coe, Multiset.gcd_cons]
      rfl
    rw [countLoop] at h
    split_ifs at h with hone
    · obtain ⟨c₁, hc₁, h⟩ := Exec.bind_eq_pure.mp h
      obtain ⟨-, rfl⟩ := int_eq_pure.mp hc₁
      obtain ⟨hg, hc⟩ := ih h
      refine ⟨hg.trans hgcd, hc.trans ?_⟩
      rw [hone, List.count_cons_self]
      push_cast
      ring
    · obtain ⟨hg, hc⟩ := ih h
      exact ⟨hg.trans hgcd, by rw [hc, List.count_cons_of_ne hone]⟩

/-- The first loop does not overflow on a vector of which the size is an `int`. -/
theorem countLoop_returns (hc : 0 ≤ c) (hle : c + post.count 1 ≤ intMax) :
    ∃ p, countLoop post g c = pure p := by
  induction post generalizing g c with
  | nil => exact ⟨_, rfl⟩
  | cons num post ih =>
    rw [countLoop]
    split_ifs with hone
    · rw [hone, List.count_cons_self] at hle
      push_cast at hle
      rw [int_eq (by rw [intMin]; omega) (by omega), pure_bind]
      exact ih (by omega) (by omega)
    · rw [List.count_cons_of_ne hone] at hle
      exact ih hc hle

/-! ### The shortest window -/

/-- **The inner loop** finds the first end for a start. -/
theorem endLoop_eq (hN : N ≤ nums.length) (hij : i ≤ j) (hj : j ≤ N)
    (hfails : ∀ r, i < r → r ≤ j → ¬ Coprime nums i r)
    (h : Accounted (Coprime nums) N i (N + 1) (minSize + 1)) :
    ∃ minSize', endLoop nums N i j (windowGcd nums i j) minSize = pure minSize' ∧
      Accounted (Coprime nums) N (i + 1) (N + 1) (minSize' + 1) := by
  obtain ⟨d, hd⟩ := Nat.exists_eq_add_of_le hj
  induction d generalizing j with
  | zero =>
    obtain rfl : N = j := hd
    refine ⟨minSize, by rw [endLoop, if_neg (lt_irrefl _)], h.extend (Nat.le_succ i) ?_⟩
    intro l r hl hli hlr hr
    obtain rfl : l = i := by omega
    exact hfails r hlr hr
  | succ d ih =>
    have hx := List.getElem?_eq_getElem (show j < nums.length by omega)
    have hgcd : gcd (windowGcd nums i j) nums[j] = windowGcd nums i (j + 1) := by
      rw [gcd_eq, windowGcd_concat hij hx]
      rfl
    rw [endLoop, if_pos (by omega), nth_eq hx, pure_bind]
    dsimp only
    rw [hgcd, ← Nat.cast_succ]
    split_ifs with hone
    · refine ⟨_, rfl, ?_⟩
      have hnext := h.shortest (Nat.lt_succ_of_le hij) (by omega) hone fun r hir hr =>
        hfails r hir (Nat.le_of_lt_succ hr)
      rwa [Nat.cast_succ, add_sub_right_comm, min_add_add_right] at hnext
    · refine ih (by omega) (by omega) (fun r hir hr => ?_) (by omega)
      rcases Nat.of_le_succ hr with hle | rfl
      · exact hfails r hir hle
      · exact hone

/-- **The outer loop** accounts for all windows. -/
theorem startLoop_eq (hN : N ≤ nums.length) (hi : i ≤ N)
    (h : Accounted (Coprime nums) N i (N + 1) (minSize + 1)) :
    ∃ minSize', startLoop nums N i minSize = pure minSize' ∧
      Accounted (Coprime nums) N N (N + 1) (minSize' + 1) := by
  obtain ⟨d, hd⟩ := Nat.exists_eq_add_of_le hi
  induction d generalizing i minSize with
  | zero =>
    obtain rfl : N = i := hd
    exact ⟨minSize, by rw [startLoop, if_neg (lt_irrefl _)], h⟩
  | succ d ih =>
    obtain ⟨minSize', hrun, h'⟩ := endLoop_eq hN le_rfl (show i ≤ N by omega)
      (fun r hir hr => absurd hir (not_lt.mpr hr)) h
    rw [windowGcd_self] at hrun
    rw [startLoop, if_pos (by omega), hrun, pure_bind, ← Nat.cast_succ]
    exact ih (by omega) h' (by omega)

/-- What the loops leave behind in `min_size`. -/
theorem startLoop_all (nums : List ℕ) : ∃ minSize,
    startLoop nums (intOfSize nums.length) 0 (intOfSize nums.length) = pure minSize ∧
      minSize ≤ intOfSize nums.length ∧
      (intOfSize nums.length = nums.length →
        Accounted (Coprime nums) nums.length nums.length (nums.length + 1) (minSize + 1)) := by
  rcases le_or_gt 0 (intOfSize nums.length) with hpos | hneg
  · obtain ⟨N, hN⟩ := Int.eq_ofNat_of_zero_le hpos
    have hle := intOfSize_le nums.length
    obtain ⟨minSize, hrun, h⟩ := startLoop_eq (show N ≤ nums.length by omega)
      (Nat.zero_le N) (.zero (Coprime nums) N (N + 1))
    have htop := h.le_top
    rw [hN]
    refine ⟨minSize, hrun, by omega, fun heq => ?_⟩
    obtain rfl : N = nums.length := by omega
    exact h
  · exact ⟨_, by rw [startLoop, if_neg (by omega)], le_rfl, fun heq => by omega⟩

/-! ### When the program is right -/

/-- The whole vector is the largest window. -/
theorem coprime_all : Coprime nums 0 nums.length ↔ Multiset.gcd (nums : Multiset ℕ) = 1 := by
  rw [Coprime, windowGcd, between_all]

theorem gcd_eq_one (h : m ∈ goodLengths (Coprime nums) nums.length) :
    Multiset.gcd (nums : Multiset ℕ) = 1 := by
  obtain ⟨hpos, i, hi, hg⟩ := h
  exact coprime_all.mp (extends_coprime nums i (i + m) 0 _ (Nat.zero_le i) (by omega) hi hg)

theorem length_mem_goodLengths (hne : nums ≠ []) (h : Multiset.gcd (nums : Multiset ℕ) = 1) :
    nums.length ∈ goodLengths (Coprime nums) nums.length :=
  mem_goodLengths (List.length_pos_of_ne_nil hne) le_rfl (coprime_all.mpr h)

theorem one_mem_goodLengths (h : 1 ∈ nums) : 1 ∈ goodLengths (Coprime nums) nums.length := by
  obtain ⟨i, hi⟩ := List.mem_iff_getElem?.mp h
  exact ⟨Nat.one_pos, i, (List.getElem?_eq_some_iff.mp hi).1, windowGcd_one hi⟩

/-- What divides all elements, and is not `1`. -/
theorem minOperations_of_gcd (h : 1 < Multiset.gcd (nums : Multiset ℕ)) :
    minOperations nums = pure (-1) := by
  have hnone : nums.count 1 = 0 := by
    refine List.count_eq_zero.mpr fun hmem => ?_
    have hdvd := Nat.le_of_dvd Nat.one_pos (Multiset.gcd_dvd (Multiset.mem_coe.mpr hmem))
    omega
  obtain ⟨⟨g, c⟩, hrun⟩ := countLoop_returns (g := 0) le_rfl
    (show (0 : ℤ) + nums.count 1 ≤ intMax by
      rw [hnone]
      decide)
  obtain ⟨rfl, rfl⟩ := countLoop_eq_pure hrun
  rw [minOperations, hrun, pure_bind]
  dsimp only
  rw [if_pos (by rwa [Nat.gcd_zero_left])]

/-- What is returned where no number but `1` divides all elements. -/
theorem eq_of_minOperations (hg : Multiset.gcd (nums : Multiset ℕ) = 1)
    (h : minOperations nums = pure c) :
    (1 ∈ nums ∧ c = intOfSize nums.length - nums.count 1) ∨
      1 ∉ nums ∧ ∃ minSize,
        startLoop nums (intOfSize nums.length) 0 (intOfSize nums.length) = pure minSize ∧
        minSize + intOfSize nums.length ≤ intMax ∧ c = minSize + intOfSize nums.length - 1 := by
  obtain ⟨⟨g, c₁⟩, hrun, h⟩ := Exec.bind_eq_pure.mp h
  obtain ⟨rfl, rfl⟩ := countLoop_eq_pure hrun
  dsimp only at h
  rw [if_neg (by rw [hg, Nat.gcd_zero_left]; exact lt_irrefl 1), zero_add] at h
  split_ifs at h with hone
  · exact .inl ⟨List.count_pos_iff.mp (by omega), ((int_eq_pure.mp h).2).symm⟩
  · obtain ⟨minSize, hloop, h⟩ := Exec.bind_eq_pure.mp h
    obtain ⟨x, hx, h⟩ := Exec.bind_eq_pure.mp h
    obtain ⟨⟨-, hmax⟩, rfl⟩ := int_eq_pure.mp hx
    refine .inr ⟨List.count_eq_zero.mp (by omega), minSize, hloop, hmax, ?_⟩
    exact ((int_eq_pure.mp h).2).symm

/-- What the first loop leaves behind where no number but `1` divides all elements. -/
theorem countLoop_all (hg : Multiset.gcd (nums : Multiset ℕ) = 1)
    (hlen : (nums.length : ℤ) ≤ intMax) : countLoop nums 0 0 = pure (1, (nums.count 1 : ℤ)) := by
  have hcount := List.count_le_length (a := 1) (l := nums)
  obtain ⟨⟨g, c⟩, hrun⟩ := countLoop_returns (g := 0) le_rfl
    (show (0 : ℤ) + nums.count 1 ≤ intMax by omega)
  obtain ⟨rfl, rfl⟩ := countLoop_eq_pure hrun
  rw [hrun, hg, Nat.gcd_zero_left, zero_add]

/-- No window is coprime. -/
theorem right_of_none (hne : nums ≠ []) (hpos : ∀ x ∈ nums, 0 < x)
    (hnone : goodLengths (Coprime nums) nums.length = ∅) : Right nums := by
  have hone : Multiset.gcd (nums : Multiset ℕ) ≠ 1 := fun hone => by
    have hmem := length_mem_goodLengths hne hone
    rw [hnone] at hmem
    exact absurd hmem (Set.notMem_empty _)
  have hzero : Multiset.gcd (nums : Multiset ℕ) ≠ 0 := by
    obtain ⟨x, hx⟩ := List.exists_mem_of_ne_nil nums hne
    exact (Multiset.gcd_ne_zero_iff _).mpr ⟨x, Multiset.mem_coe.mpr hx, (hpos x hx).ne'⟩
  exact ⟨-1, minOperations_of_gcd (by omega), .inr ⟨toOnes_eq_empty hne hnone, rfl⟩⟩

/-- There are ones. -/
theorem right_of_mem (hmem : 1 ∈ nums) (hlen : (nums.length : ℤ) ≤ intMax) : Right nums := by
  have hone := List.count_pos_iff.mpr hmem
  have hcount := List.count_le_length (a := 1) (l := nums)
  rw [Right, minOperations, countLoop_all (gcd_eq_one (one_mem_goodLengths hmem)) hlen, pure_bind]
  dsimp only
  rw [if_neg (lt_irrefl 1), if_pos (by omega), intOfSize_eq hlen,
    int_eq (by rw [intMin]; omega) (by omega)]
  exact ⟨_, rfl, .inl ⟨_, isLeast_toOnes_of_mem hmem, (Nat.cast_sub hcount).symm⟩⟩

/-- There is none, but a window that is coprime, of `m` elements at least. -/
theorem right_of_window (hmem : 1 ∉ nums)
    (hm : IsLeast (goodLengths (Coprime nums) nums.length) m)
    (hle : (m : ℤ) + nums.length ≤ intMax + 1) : Right nums := by
  obtain ⟨hm0, i, hi, -⟩ := hm.1
  have hlen : (nums.length : ℤ) ≤ intMax := by omega
  have hn := intOfSize_eq hlen
  obtain ⟨minSize, hloop, -, hacc⟩ := startLoop_all nums
  have hmin := (hacc hn).eq_min hm
  rw [hn] at hloop
  rw [Right, minOperations, countLoop_all (gcd_eq_one hm.1) hlen, pure_bind]
  dsimp only
  rw [if_neg (lt_irrefl 1), List.count_eq_zero.mpr hmem, if_neg (not_not.mpr Nat.cast_zero), hn,
    hloop, pure_bind, int_eq (by rw [intMin]; omega) (by omega), pure_bind,
    int_eq (by rw [intMin]; omega) (by omega)]
  refine ⟨_, rfl, .inl ⟨_, isLeast_toOnes_of_window hmem hm, ?_⟩⟩
  omega

/-- **The program is right** where no window is coprime, or one that is not too long. -/
theorem right_of_fits (hne : nums ≠ []) (hpos : ∀ x ∈ nums, 0 < x) (h : Fits nums) :
    Right nums := by
  rcases h with hnone | ⟨k, hk, hle⟩
  · exact right_of_none hne hpos hnone
  · obtain ⟨m, hm⟩ := (exists_isLeast_or (Coprime nums) nums.length).resolve_left
      (Set.Nonempty.ne_empty ⟨k, hk⟩)
    have hmk := hm.2 hk
    have hk0 := hk.1
    by_cases hmem : 1 ∈ nums
    · exact right_of_mem hmem (by omega)
    · exact right_of_window hmem hm (by omega)

/-- **The program is wrong** where all windows that are coprime are too long. -/
theorem not_right (hne : nums ≠ []) (h : ¬ Fits nums) : ¬ Right nums := by
  rintro ⟨r, hrun, hr⟩
  obtain ⟨hsome, hlong⟩ := not_or.mp h
  obtain ⟨m, hm⟩ := (exists_isLeast_or (Coprime nums) nums.length).resolve_left hsome
  have hlen : intMax + 1 < (m : ℤ) + nums.length := not_le.mp fun hle => hlong ⟨m, hm.1, hle⟩
  have hmax := intOfSize_le_intMax nums.length
  have hsize := intOfSize_eq_or nums.length
  rw [show ((2 ^ 32 : ℕ) : ℤ) = 4294967296 by norm_num] at hsize
  have hpos := hm.1.1
  rcases eq_of_minOperations (gcd_eq_one hm.1) hrun with
    ⟨hmem, hr'⟩ | ⟨hmem, minSize, hloop, hle, hr'⟩
  · have hone := hm.2 (one_mem_goodLengths hmem)
    have hleast := isLeast_toOnes_of_mem hmem
    have hcount := List.count_le_length (a := 1) (l := nums)
    rcases hr with ⟨t, ht, heq⟩ | ⟨hempty, -⟩
    · obtain rfl := ht.unique hleast
      omega
    · rw [hempty] at hleast
      exact absurd hleast.1 (Set.notMem_empty _)
  · have hleast := isLeast_toOnes_of_window hmem hm
    obtain ⟨minSize', hloop', htop, hacc⟩ := startLoop_all nums
    obtain rfl := Exec.pure_unique hloop hloop'
    rcases hr with ⟨t, ht, heq⟩ | ⟨hempty, -⟩
    · obtain rfl := ht.unique hleast
      have hwhole := hm.2 (length_mem_goodLengths hne (gcd_eq_one hm.1))
      rcases hsize with hn | hn
      · have hmin := (hacc hn).eq_min hm
        omega
      · rw [intMax] at hmax
        omega
    · rw [hempty] at hleast
      exact absurd hleast.1 (Set.notMem_empty _)

/-- **When the program is right**: exactly if no window has the greatest common divisor `1`, or one
that has not more than 2^31 elements together with the vector. -/
theorem minOperations_iff (hne : nums ≠ []) (hpos : ∀ x ∈ nums, 0 < x) : Right nums ↔ Fits nums :=
  ⟨fun h => not_not.mp fun hn => not_right hne hn h, right_of_fits hne hpos⟩

/-- Of four elements the last two are coprime. -/
theorem minOperations_iff_four : Right [2, 6, 3, 4] := by
  have htwo : 2 ∈ goodLengths (Coprime [2, 6, 3, 4]) 4 := ⟨by decide, 2, by decide, rfl⟩
  exact (minOperations_iff (by decide) (by decide)).mpr (.inr ⟨2, htwo, by decide⟩)

/-- A `2` and a `3` with sixes between them. -/
def apart (n : ℕ) : List ℕ := 2 :: (List.replicate n 6 ++ [3])

theorem length_apart (n : ℕ) : (apart n).length = n + 2 := by
  rw [apart, List.length_cons, List.length_append, List.length_replicate, List.length_singleton]

theorem dvd_of_apart {x : ℕ} (h : (apart n)[k]? = some x) :
    (k ≠ 0 → 3 ∣ x) ∧ (k ≠ n + 1 → 2 ∣ x) := by
  rw [apart] at h
  cases k with
  | zero =>
    obtain rfl : 2 = x := Option.some.inj h
    exact ⟨fun h => absurd rfl h, fun _ => dvd_rfl⟩
  | succ k =>
    rw [List.getElem?_cons_succ, List.getElem?_append, List.length_replicate] at h
    split_ifs at h with hk
    · rw [List.getElem?_replicate, if_pos hk] at h
      obtain rfl : 6 = x := Option.some.inj h
      exact ⟨fun _ => by decide, fun _ => by decide⟩
    · obtain ⟨hlt, hx⟩ := List.getElem?_eq_some_iff.mp h
      rw [List.getElem_singleton] at hx
      rw [List.length_singleton] at hlt
      subst hx
      exact ⟨fun _ => dvd_rfl, fun hne => by omega⟩

/-- Only the whole vector is coprime. -/
theorem eq_of_apart (h : m ∈ goodLengths (Coprime (apart n)) (apart n).length) : m = n + 2 := by
  obtain ⟨hpos, i, hi, hg⟩ := h
  rw [length_apart] at hi
  have hdvd : ∀ d, (∀ k x, i ≤ k → k < i + m → (apart n)[k]? = some x → d ∣ x) → d ∣ 1 := by
    intro d hd
    rw [← hg, windowGcd, Multiset.dvd_gcd]
    intro x hx
    obtain ⟨k, hk, hkm, hget⟩ := mem_between (Multiset.mem_coe.mp hx)
    exact hd k x hk hkm hget
  by_contra hne
  rcases Nat.eq_zero_or_pos i with rfl | hi0
  · have htwo := hdvd 2 fun k x _ hk hx => (dvd_of_apart hx).2 (by omega)
    exact absurd htwo (by decide)
  · have hthree := hdvd 3 fun k x hk _ hx => (dvd_of_apart hx).1 (by omega)
    exact absurd hthree (by decide)

theorem gcd_apart (n : ℕ) : Multiset.gcd (apart n : Multiset ℕ) = 1 := by
  have htwo : Multiset.gcd (apart n : Multiset ℕ) ∣ 2 :=
    Multiset.gcd_dvd (Multiset.mem_coe.mpr List.mem_cons_self)
  have hthree : Multiset.gcd (apart n : Multiset ℕ) ∣ 3 :=
    Multiset.gcd_dvd (Multiset.mem_coe.mpr
      (List.mem_cons_of_mem 2 (List.mem_append_right _ (List.mem_singleton_self 3))))
  exact Nat.dvd_one.mp ((Nat.dvd_add_right htwo).mp hthree)

/-- So many sixes that the sum overflows. -/
theorem not_all_right : ¬ ∀ nums : List ℕ, nums ≠ [] → (∀ x ∈ nums, 0 < x) → Right nums := by
  intro h
  obtain ⟨n, hn⟩ : ∃ n, n = 1073741823 := ⟨_, rfl⟩
  have hne : apart n ≠ [] := List.cons_ne_nil _ _
  refine not_right hne ?_ (h (apart n) hne fun x hx => ?_)
  · rintro (hnone | ⟨m, hm, hle⟩)
    · have hmem := length_mem_goodLengths hne (gcd_apart n)
      rw [hnone] at hmem
      exact absurd hmem (Set.notMem_empty _)
    · rw [eq_of_apart hm, length_apart, intMax, hn] at hle
      omega
  · rw [apart, List.mem_cons, List.mem_append, List.mem_singleton] at hx
    rcases hx with rfl | hx | rfl
    · decide
    · rw [List.eq_of_mem_replicate hx]
      decide
    · decide

end MinOperations

end Candcpp
