import Candcpp.Cpp.Exec
import Candcpp.Order.Windows

/-!
# The shortest subarray by its bits

The two versions of `3095.cpp`, which look for the shortest subarray whose bitwise OR is at least
`k`: `minimumSubarrayLength_bf` tries all starts, and `minimumSubarrayLength_sw` moves a window over
the array. A bit cannot be taken out of an OR, so that the window counts its elements bit by bit, in
`bits`, which `func` updates (`Candcpp.MinimumSubarrayLength.func_add`,
`Candcpp.MinimumSubarrayLength.func_remove`).

Both compute the minimum of a bound and of the lengths of the subarrays
(`Candcpp.MinimumSubarrayLength.bf_accounted`, `Candcpp.MinimumSubarrayLength.sw_accounted`), and
take the bound itself for *not found*. For the one the bound is `100`, for the other it is
`INT_MAX`: so **they agree exactly if the shortest subarray has less than `100` elements**, or there
is none, or it has `INT_MAX` elements (`Candcpp.MinimumSubarrayLength.sameLength_iff`). The number
of elements is converted to an `int`, so that **the window is right** exactly if a shortest subarray
is found in that many elements, and has less than `INT_MAX`
(`Candcpp.MinimumSubarrayLength.sw_iff`).

An element is a natural number, since none is negative. A position is less than `n`, which is an
`int`, so that no position and no count overflows.
-/

namespace Candcpp

open Cpp

namespace MinimumSubarrayLength

/-! ### The code -/

/-- `int n = nums.size()`. -/
def size (nums : List ℕ) : ℤ := Int.bmod nums.length (2 ^ 32)

/-- `while (j < n && t < k)`, which leaves behind `t` and `j`. -/
def orLoop (nums : List ℕ) (n k j : ℤ) (t : ℕ) : Exec (ℕ × ℤ) := do
  let +zeta orLoop : type_of% orLoop := by apply orLoop
  if j < n ∧ (t : ℤ) < k then
    let x ← nth nums j
    orLoop nums n k (j + 1) (t ||| x)
  else
    pure (t, j)
partial_fixpoint

/-- `for (int i = 0; i < n; i++)`, which leaves behind `ans`. -/
def bfLoop (nums : List ℕ) (n k i ans : ℤ) : Exec ℤ := do
  let +zeta bfLoop : type_of% bfLoop := by apply bfLoop
  if i < n then
    let x ← nth nums i
    let p ← orLoop nums n k (i + 1) x
    if (p.1 : ℤ) ≥ k then
      bfLoop nums n k (i + 1) (min ans (p.2 - i))
    else
      bfLoop nums n k (i + 1) ans
  else
    pure ans
partial_fixpoint

/-- `minimumSubarrayLength_bf`. -/
def minimumSubarrayLengthBf (nums : List ℕ) (k : ℤ) : Exec ℤ := do
  let ans ← bfLoop nums (size nums) k 0 100
  pure (if ans = 100 then -1 else ans)

/-- `while (v)`: the first loop of `func`. -/
def bitLoop (bits : Arr ℤ) (v : ℕ) (choice : Bool) (cnt : ℤ) : Exec (Arr ℤ) := do
  let +zeta bitLoop : type_of% bitLoop := by apply bitLoop
  if v ≠ 0 then
    if v &&& 1 ≠ 0 then
      let x ← bits.getInt cnt
      let bits ← bits.putInt cnt (if choice then x + 1 else x - 1)
      bitLoop bits (v >>> 1) choice (cnt + 1)
    else
      bitLoop bits (v >>> 1) choice (cnt + 1)
  else
    pure bits
partial_fixpoint

/-- `for (int i = 0; i < 30; i++)`: the second loop of `func`. -/
def valueLoop (bits : Arr ℤ) (i value : ℕ) : Exec ℕ := do
  let +zeta valueLoop : type_of% valueLoop := by apply valueLoop
  if i < 30 then
    let x ← bits.getInt i
    valueLoop bits (i + 1) (if x ≠ 0 then value ||| 1 <<< i else value)
  else
    pure value
partial_fixpoint

/-- `func`, which returns a value and changes `bits`. -/
def func (bits : Arr ℤ) (v : ℕ) (choice : Bool) : Exec (ℕ × Arr ℤ) := do
  let bits ← bitLoop bits v choice 0
  let value ← valueLoop bits 0 0
  pure (value, bits)

/-- The variables of `minimumSubarrayLength_sw`, but for the right end. -/
structure Sliding where
  bits : Arr ℤ
  value : ℕ
  l : ℤ
  ans : ℤ

section Code

/-! What is to be observed after a call of `func`, with the first and the last position of the
window, is a parameter; in the code it is nothing. -/

variable (after : ℤ → ℤ → Arr ℤ → ℕ → Exec Unit)

/-- `while (l <= r && value >= k)`. -/
def dropLoop (nums : List ℕ) (k r : ℤ) (s : Sliding) : Exec Sliding := do
  let +zeta dropLoop : type_of% dropLoop := by apply dropLoop
  if s.l ≤ r ∧ (s.value : ℤ) ≥ k then
    let ans := min s.ans (r - s.l + 1)
    let x ← nth nums s.l
    let p ← func s.bits x false
    after (s.l + 1) r p.2 p.1
    dropLoop nums k r { bits := p.2, value := p.1, l := s.l + 1, ans := ans }
  else
    pure s
partial_fixpoint

/-- `while (r < n)`. -/
def slideLoop (nums : List ℕ) (n k r : ℤ) (s : Sliding) : Exec Sliding := do
  let +zeta slideLoop : type_of% slideLoop := by apply slideLoop
  if r < n then
    let x ← nth nums r
    let p ← func s.bits x true
    after s.l r p.2 p.1
    let s ← dropLoop after nums k r { s with bits := p.2, value := p.1 }
    slideLoop nums n k (r + 1) s
  else
    pure s
partial_fixpoint

/-- `minimumSubarrayLength_sw`. -/
def minimumSubarrayLengthSw (nums : List ℕ) (k : ℤ) : Exec ℤ := do
  let s ← slideLoop after nums (size nums) k 0
    { bits := Arr.fill 30 0, value := 0, l := 0, ans := intMax }
  pure (if s.ans = intMax then -1 else s.ans)

end Code

/-! ### The subarrays -/

/-- The OR of all elements. -/
def orAll (l : List ℕ) : ℕ := l.foldr (· ||| ·) 0

/-- The OR of the elements from the position `l` on and before `r` is at least `k`. -/
def Qualifies (nums : List ℕ) (k : ℤ) (l r : ℕ) : Prop := k ≤ (orAll (between nums l r) : ℤ)

instance (nums : List ℕ) (k : ℤ) (l r : ℕ) : Decidable (Qualifies nums k l r) :=
  inferInstanceAs (Decidable (_ ≤ _))

/-- The right answer: the length of the shortest subarray that qualifies, or `-1` if there is
none. -/
def Shortest (nums : List ℕ) (k ans : ℤ) : Prop :=
  (∃ m : ℕ, IsLeast (goodLengths (Qualifies nums k) nums.length) m ∧ ans = m) ∨
    (goodLengths (Qualifies nums k) nums.length = ∅ ∧ ans = -1)

/-- **What `func` leaves behind** for a window from `first` to `last`: in `bits`, for each bit, the
number of elements that have it, and as the value the OR. -/
def Counted (nums : List ℕ) (first last : ℤ) (bits : Arr ℤ) (value : ℕ) : Prop :=
  bits.size = 30 ∧ (∀ i < 30, bits.data i =
    (between nums first.toNat (last + 1).toNat).countP (·.testBit i)) ∧
      value = orAll (between nums first.toNat (last + 1).toNat)

instance (nums : List ℕ) (first last : ℤ) (bits : Arr ℤ) (value : ℕ) :
    Decidable (Counted nums first last bits value) := inferInstanceAs (Decidable (_ ∧ _ ∧ _))

/-- An observer that only returns if `func` has left behind what it should. -/
def counted (nums : List ℕ) (first last : ℤ) (bits : Arr ℤ) (value : ℕ) : Exec Unit :=
  if Counted nums first last bits value then pure () else (none : Result Unit)

variable {nums w : List ℕ} {k : ℤ} {v i j l r n : ℕ}

@[simp] theorem orAll_cons (v : ℕ) (w : List ℕ) : orAll (v :: w) = v ||| orAll w := rfl

theorem orAll_append (w w' : List ℕ) : orAll (w ++ w') = orAll w ||| orAll w' := by
  induction w with
  | nil => simp [orAll]
  | cons v w ih => rw [List.cons_append, orAll_cons, ih, orAll_cons, Nat.or_assoc]

theorem testBit_orAll (w : List ℕ) (i : ℕ) : (orAll w).testBit i = w.any (·.testBit i) := by
  induction w with
  | nil => simp [orAll]
  | cons v w ih => rw [orAll_cons, Nat.testBit_or, ih, List.any_cons]

/-- The OR of a larger window is greater. -/
theorem extends_qualifies (nums : List ℕ) (k : ℤ) : Extends (Qualifies nums k) := by
  intro l r l' r' hl hlr hr hk
  refine le_trans hk (Int.ofNat_le.mpr ?_)
  rw [between_append hl (hlr.le.trans hr), between_append (l := nums) hlr.le hr, orAll_append,
    orAll_append]
  exact Nat.left_le_or.trans Nat.right_le_or

/-! ### The bits -/

/-- The array `bits` of a window. -/
def counting (w : List ℕ) : Arr ℤ where
  data := fun i => w.countP (·.testBit i)
  size := 30

theorem counting_nil : counting [] = Arr.fill 30 0 := rfl

/-- The least bit of a number. -/
theorem and_one_ne_zero (v : ℕ) : v &&& 1 ≠ 0 ↔ v.testBit 0 := by
  rw [Nat.and_one_is_mod, Nat.testBit_zero]
  simp

/-- The bits of what is left after a turn of the loop are the others. -/
theorem testBit_rest {c : ℕ} (hne : i ≠ c) :
    (c + 1 ≤ i ∧ (v >>> 1).testBit (i - (c + 1))) ↔ (c ≤ i ∧ v.testBit (i - c)) := by
  rcases Nat.lt_or_ge i c with hlt | hge
  · exact iff_of_false (fun h => by omega) fun h => by omega
  · rw [Nat.testBit_shiftRight, show 1 + (i - (c + 1)) = i - c by omega]
    exact and_congr_left fun _ => by omega

/-- **The first loop** adds one, or takes one off, for each bit of the number. -/
theorem bitLoop_eq (choice : Bool) {c m : ℕ} {data : ℕ → ℤ} (hv : v < 2 ^ (m - c)) :
    bitLoop ⟨data, m⟩ v choice c = pure ⟨fun i => data i +
      if c ≤ i ∧ v.testBit (i - c) then (if choice then 1 else -1) else 0, m⟩ := by
  induction hn : m - c generalizing v c data with
  | zero =>
    rw [hn, pow_zero] at hv
    obtain rfl : v = 0 := by omega
    rw [bitLoop, if_neg (by simp)]
    simp
  | succ n ih =>
    rw [bitLoop]
    by_cases hzero : v = 0
    · subst hzero
      rw [if_neg (by simp)]
      simp
    · have hcast : (c : ℤ) + 1 = (c + 1 : ℕ) := by push_cast; rfl
      have hrest : v >>> 1 < 2 ^ (m - (c + 1)) := by
        rw [hn, pow_succ] at hv
        rw [Nat.shiftRight_eq_div_pow, show m - (c + 1) = n by omega]
        omega
      have hlt : c < (Arr.mk data m).size := by
        change c < m
        omega
      rw [if_pos hzero]
      by_cases hbit : v.testBit 0
      · rw [if_pos ((and_one_ne_zero v).mpr hbit), Arr.getInt_eq hlt, pure_bind,
          Arr.putInt_eq hlt, pure_bind, hcast, ih hrest (by omega)]
        refine congrArg pure (Arr.ext ?_ rfl)
        funext i
        dsimp only
        rcases eq_or_ne i c with rfl | hne
        · simp only [Function.update_self, Nat.not_succ_le_self, false_and, if_false, le_refl,
            Nat.sub_self, hbit, and_self, if_true, add_zero]
          cases choice with
          | false => rfl
          | true => rfl
        · rw [Function.update_of_ne hne]
          simp only [testBit_rest hne]
      · rw [if_neg (mt (and_one_ne_zero v).mp hbit), hcast, ih hrest (by omega)]
        refine congrArg pure (Arr.ext ?_ rfl)
        funext i
        dsimp only
        rcases eq_or_ne i c with rfl | hne
        · simp [hbit]
        · simp only [testBit_rest hne]

/-- **The second loop** puts the value together. -/
theorem valueLoop_eq {bits : Arr ℤ} (hsize : bits.size = 30) (hi : i ≤ 30) (value : ℕ) :
    ∃ r, valueLoop bits i value = pure r ∧
      ∀ j, r.testBit j = (value.testBit j || decide (i ≤ j ∧ j < 30 ∧ bits.data j ≠ 0)) := by
  induction hn : 30 - i generalizing i value with
  | zero =>
    rw [valueLoop, if_neg (by omega)]
    refine ⟨value, rfl, fun j => ?_⟩
    rw [decide_eq_false fun h => by omega, Bool.or_false]
  | succ n ih =>
    obtain ⟨r, hr, hbits⟩ := ih (i := i + 1) (by omega)
      (if bits.data i ≠ 0 then value ||| 1 <<< i else value) (by omega)
    refine ⟨r, ?_, fun j => ?_⟩
    · rw [valueLoop, if_pos (by omega), Arr.getInt_eq (by omega), pure_bind, hr]
    · rw [hbits]
      rcases eq_or_ne j i with rfl | hne
      · rw [decide_eq_false fun h => by omega, Bool.or_false]
        by_cases hset : bits.data j ≠ 0
        · rw [if_pos hset, decide_eq_true ⟨le_rfl, by omega, hset⟩, Nat.testBit_or,
            Nat.testBit_shiftLeft]
          simp
        · rw [if_neg hset, decide_eq_false fun h => hset h.2.2, Bool.or_false]
      · have hset : (if bits.data i ≠ 0 then value ||| 1 <<< i else value).testBit j =
            value.testBit j := by
          split_ifs
          · rw [Nat.testBit_or, Nat.one_shiftLeft, Nat.testBit_two_pow_of_ne hne.symm,
              Bool.or_false]
          · rfl
        rw [hset]
        congr 2
        exact propext ⟨fun h => ⟨by omega, h.2⟩, fun h => ⟨by omega, h.2⟩⟩

/-- The value of the bits of a window is its OR. -/
theorem valueLoop_counting (hw : ∀ x ∈ w, x < 2 ^ 30) :
    valueLoop (counting w) 0 0 = pure (orAll w) := by
  have hsize : (counting w).size = 30 := rfl
  obtain ⟨r, hr, hbits⟩ := valueLoop_eq hsize (Nat.zero_le _) 0
  rw [hr]
  refine congrArg pure (Nat.eq_of_testBit_eq fun j => ?_)
  rw [hbits, Nat.zero_testBit, Bool.false_or, testBit_orAll, Bool.eq_iff_iff, decide_eq_true_iff,
    List.any_eq_true]
  have hcount : (counting w).data j ≠ 0 ↔ ∃ x ∈ w, x.testBit j := by
    rw [counting, Int.natCast_ne_zero, ← Nat.pos_iff_ne_zero, List.countP_pos_iff]
  rw [hcount]
  refine ⟨fun h => h.2.2, fun ⟨x, hx, hbit⟩ => ⟨Nat.zero_le j, ?_, x, hx, hbit⟩⟩
  by_contra hj
  -- the elements have no bits from the thirtieth on
  have hlt : x < 2 ^ j := (hw x hx).trans_le (Nat.pow_le_pow_right (by omega) (not_lt.mp hj))
  rw [Nat.testBit_lt_two_pow hlt] at hbit
  cases hbit

/-- **`func` takes an element in**, at the end of the window. -/
theorem func_add (hw : ∀ x ∈ w, x < 2 ^ 30) (hv : v < 2 ^ 30) :
    func (counting w) v true = pure (orAll (w ++ [v]), counting (w ++ [v])) := by
  have hloop : bitLoop (counting w) v true 0 = pure (counting (w ++ [v])) := by
    refine (bitLoop_eq true (c := 0) hv).trans (congrArg pure (Arr.ext ?_ rfl))
    funext i
    dsimp only [counting]
    simp only [List.countP_append, List.countP_singleton, Nat.zero_le, true_and, Nat.sub_zero]
    push_cast
    rfl
  have hall : ∀ x ∈ w ++ [v], x < 2 ^ 30 := by
    simpa [or_imp, forall_and] using ⟨hw, hv⟩
  rw [func, hloop, pure_bind, valueLoop_counting hall]
  rfl

/-- **`func` takes an element out**, at the start of the window. -/
theorem func_remove (hw : ∀ x ∈ w, x < 2 ^ 30) (hv : v < 2 ^ 30) :
    func (counting (v :: w)) v false = pure (orAll w, counting w) := by
  have hloop : bitLoop (counting (v :: w)) v false 0 = pure (counting w) := by
    refine (bitLoop_eq false (c := 0) hv).trans (congrArg pure (Arr.ext ?_ rfl))
    funext i
    dsimp only [counting]
    simp only [List.countP_cons, Nat.zero_le, true_and, Nat.sub_zero]
    cases v.testBit i with
    | false => simp
    | true => simp
  rw [func, hloop, pure_bind, valueLoop_counting hw]
  rfl

/-! ### All starts -/

variable {N : ℕ} {ans : ℤ}

/-- One more element of a subarray. -/
theorem orAll_concat (hlr : l ≤ r) (hv : nums[r]? = some v) :
    orAll (between nums l (r + 1)) = orAll (between nums l r) ||| v := by
  rw [between_concat hlr hv, orAll_append, orAll_cons]
  simp [orAll]

/-- **The inner loop** finds the first end for a start, or goes on to the end of the array. -/
theorem orLoop_eq (hN : N ≤ nums.length) (hij : i < j) (hj : j ≤ N)
    (hfails : ∀ r, i < r → r < j → ¬ Qualifies nums k i r) : ∃ j' : ℕ, i < j' ∧ j' ≤ N ∧
      orLoop nums N k j (orAll (between nums i j)) =
        pure (orAll (between nums i j'), (j' : ℤ)) ∧
      (∀ r, i < r → r < j' → ¬ Qualifies nums k i r) ∧ (j' = N ∨ Qualifies nums k i j') := by
  induction hn : N - j generalizing j with
  | zero =>
    rw [orLoop, if_neg (by omega)]
    exact ⟨j, hij, hj, rfl, hfails, .inl (by omega)⟩
  | succ n ih =>
    rw [orLoop]
    split_ifs with hgo
    · have hx := List.getElem?_eq_getElem (show j < nums.length by omega)
      have hcast : (j : ℤ) + 1 = (j + 1 : ℕ) := by push_cast; rfl
      rw [nth_eq hx, pure_bind, hcast, ← orAll_concat hij.le hx]
      refine ih (by omega) (by omega) (fun r hir hr => ?_) (by omega)
      rcases Nat.lt_succ_iff_lt_or_eq.mp hr with hlt | rfl
      · exact hfails r hir hlt
      · exact not_le.mpr hgo.2
    · refine ⟨j, hij, hj, rfl, hfails, .inr ?_⟩
      by_contra hlt
      exact hgo ⟨by omega, not_le.mp hlt⟩

/-- **The outer loop** accounts for all subarrays. -/
theorem bfLoop_eq (hN : N ≤ nums.length) (hi : i ≤ N)
    (h : Accounted (Qualifies nums k) N i 100 ans) :
    ∃ ans', bfLoop nums N k i ans = pure ans' ∧ Accounted (Qualifies nums k) N N 100 ans' := by
  induction hn : N - i generalizing i ans with
  | zero =>
    obtain rfl : i = N := by omega
    rw [bfLoop, if_neg (by omega)]
    exact ⟨ans, rfl, h⟩
  | succ n ih =>
    have hx := List.getElem?_eq_getElem (show i < nums.length by omega)
    have hcast : (i : ℤ) + 1 = (i + 1 : ℕ) := by push_cast; rfl
    have hone : orAll (between nums i (i + 1)) = nums[i] := by
      rw [orAll_concat le_rfl hx, between_self]
      exact Nat.zero_or _
    obtain ⟨j, hij, hj, hrun, hfails, hstop⟩ := orLoop_eq (k := k) hN (Nat.lt_succ_self i)
      (by omega) fun r hir hr => by omega
    rw [bfLoop, if_pos (by omega), nth_eq hx, pure_bind, hcast, ← hone, hrun, pure_bind]
    dsimp only
    split_ifs with hgood
    · exact ih (by omega) (h.shortest hij hj hgood hfails) (by omega)
    -- the loop has come to the end of the array
    · obtain rfl : j = N := hstop.resolve_right hgood
      refine ih (by omega) (h.extend (Nat.le_succ i) fun l r hl hlt hlr hr => ?_) (by omega)
      obtain rfl : l = i := by omega
      rcases Nat.eq_or_lt_of_le hr with rfl | hlt'
      · exact hgood
      · exact hfails r hlr hlt'

/-! ### The window -/

/-- An observer that returns where `func` has left behind what it should. -/
def Accepts (after : ℤ → ℤ → Arr ℤ → ℕ → Exec Unit) (nums : List ℕ) : Prop :=
  ∀ first last bits value, Counted nums first last bits value →
    after first last bits value = pure ()

theorem accepts_pure (nums : List ℕ) : Accepts (fun _ _ _ _ => pure ()) nums :=
  fun _ _ _ _ _ => rfl

theorem counted_counting (nums : List ℕ) (l r : ℕ) :
    Counted nums l r (counting (between nums l (r + 1))) (orAll (between nums l (r + 1))) := by
  refine ⟨rfl, fun i _ => rfl, rfl⟩

/-- The variables when the window goes from `l` up to before `r`. -/
def sliding (nums : List ℕ) (l r : ℕ) (ans : ℤ) : Sliding where
  bits := counting (between nums l r)
  value := orAll (between nums l r)
  l := l
  ans := ans

variable {after : ℤ → ℤ → Arr ℤ → ℕ → Exec Unit}

theorem between_lt (hnums : ∀ x ∈ nums, x < 2 ^ 30) (l r : ℕ) :
    ∀ x ∈ between nums l r, x < 2 ^ 30 := by
  intro x hx
  obtain ⟨i, -, -, hi⟩ := mem_between hx
  exact hnums x (List.mem_of_getElem? hi)

/-- **The inner loop** moves the left end until the window does not qualify. -/
theorem dropLoop_eq (hafter : Accepts after nums) (hnums : ∀ x ∈ nums, x < 2 ^ 30)
    (hN : N ≤ nums.length) (hr : r < N) (hl : l ≤ r + 1)
    (h : Slid (Qualifies nums k) N l r intMax ans) : ∃ l' ans', l' ≤ r + 1 ∧
      dropLoop after nums k r (sliding nums l (r + 1) ans) = pure (sliding nums l' (r + 1) ans') ∧
      Slid (Qualifies nums k) N l' (r + 1) intMax ans' := by
  induction hn : r + 1 - l generalizing l ans with
  | zero =>
    rw [dropLoop, if_neg (by simp only [sliding]; omega)]
    exact ⟨l, ans, hl, rfl, h.grow (extends_qualifies nums k) (.inl (by omega))⟩
  | succ n ih =>
    have hx := List.getElem?_eq_getElem (show l < nums.length by omega)
    have hwindow := between_cons (show l < r + 1 by omega) hx
    have hcast : (l : ℤ) + 1 = (l + 1 : ℕ) := by push_cast; rfl
    have hlt := between_lt hnums (l + 1) (r + 1)
    rw [dropLoop]
    split_ifs with hgo
    · have hfunc := func_remove hlt (hnums _ (List.mem_of_getElem? hx))
      rw [← hwindow] at hfunc
      have hseen := hafter _ _ _ _ (counted_counting nums (l + 1) r)
      simp only [sliding] at hgo ⊢
      rw [nth_eq hx, pure_bind, hfunc, pure_bind, hcast]
      dsimp only
      rw [hseen, pure_bind]
      exact ih (by omega) (h.drop (by omega) hr hgo.2) (by omega)
    · refine ⟨l, ans, hl, rfl, h.grow (extends_qualifies nums k) (.inr fun hgood => hgo ?_)⟩
      simp only [sliding]
      exact ⟨by omega, hgood⟩

/-- **The outer loop** accounts for all subarrays. -/
theorem slideLoop_eq (hafter : Accepts after nums) (hnums : ∀ x ∈ nums, x < 2 ^ 30)
    (hN : N ≤ nums.length) (hr : r ≤ N) (hl : l ≤ r)
    (h : Slid (Qualifies nums k) N l r intMax ans) : ∃ s,
      slideLoop after nums N k r (sliding nums l r ans) = pure s ∧
        Accounted (Qualifies nums k) N N intMax s.ans := by
  induction hn : N - r generalizing l r ans with
  | zero =>
    obtain rfl : r = N := by omega
    rw [slideLoop, if_neg (by omega)]
    exact ⟨_, rfl, h.finish hl⟩
  | succ n ih =>
    have hx := List.getElem?_eq_getElem (show r < nums.length by omega)
    have hwindow := between_concat hl hx
    have hcast : (r : ℤ) + 1 = (r + 1 : ℕ) := by push_cast; rfl
    have hfunc := func_add (between_lt hnums l r) (hnums _ (List.mem_of_getElem? hx))
    rw [← hwindow] at hfunc
    have hseen := hafter _ _ _ _ (counted_counting nums l r)
    obtain ⟨l', ans', hl', hdrop, hslid⟩ :=
      dropLoop_eq hafter hnums hN (by omega) (by omega) h
    simp only [sliding] at hdrop
    rw [slideLoop, if_pos (by omega), nth_eq hx, pure_bind]
    simp only [sliding]
    rw [hfunc, pure_bind]
    dsimp only
    rw [hseen, pure_bind, hdrop, pure_bind, hcast]
    exact ih (by omega) hl' hslid (by omega)

/-! ### The results -/

/-- The elements that are looked at: as many as `n` says. -/
def seen (nums : List ℕ) : ℕ := (size nums).toNat

theorem seen_le (nums : List ℕ) : seen nums ≤ nums.length := toNat_intOfSize_le nums.length

theorem seen_le_intMax (nums : List ℕ) : (seen nums : ℤ) ≤ intMax :=
  toNat_intOfSize_le_intMax nums.length

/-- All elements are looked at, if their number is an `int`. -/
theorem seen_eq (h : (nums.length : ℤ) ≤ intMax) : seen nums = nums.length := toNat_intOfSize h

/-- What the brute force accounts for. -/
theorem bf_accounted (nums : List ℕ) (k : ℤ) : ∃ ans,
    minimumSubarrayLengthBf nums k = pure (if ans = 100 then -1 else ans) ∧
      Accounted (Qualifies nums k) (seen nums) (seen nums) 100 ans := by
  obtain ⟨ans, hrun, h⟩ := bfLoop_eq (seen_le nums) (Nat.zero_le _)
    (.zero (Qualifies nums k) (seen nums) 100)
  refine ⟨ans, ?_, h⟩
  have hloop : bfLoop nums (size nums) k 0 100 = pure ans := by
    rw [← hrun, seen]
    rcases lt_or_ge 0 (size nums) with hpos | hneg
    · rw [Int.toNat_of_nonneg hpos.le]
      rfl
    · rw [bfLoop, if_neg (by omega), bfLoop, if_neg (by omega)]
  rw [minimumSubarrayLengthBf, hloop, pure_bind]

/-- What the window accounts for, whatever is observed. -/
theorem sw_accounted (hafter : Accepts after nums) (hnums : ∀ x ∈ nums, x < 2 ^ 30) (k : ℤ) :
    ∃ ans, minimumSubarrayLengthSw after nums k = pure (if ans = intMax then -1 else ans) ∧
      Accounted (Qualifies nums k) (seen nums) (seen nums) intMax ans := by
  obtain ⟨s, hrun, h⟩ := slideLoop_eq hafter hnums (seen_le nums) (Nat.zero_le _) le_rfl
    (.init (Qualifies nums k) (seen nums) intMax)
  refine ⟨s.ans, ?_, h⟩
  have hstart : sliding nums 0 0 intMax =
      { bits := Arr.fill 30 0, value := 0, l := 0, ans := intMax } := by
    rw [sliding, between_self, counting_nil]
    rfl
  have hloop : slideLoop after nums (size nums) k 0 (sliding nums 0 0 intMax) = pure s := by
    rw [← hrun, seen]
    rcases lt_or_ge 0 (size nums) with hpos | hneg
    · rw [Int.toNat_of_nonneg hpos.le]
      rfl
    · rw [slideLoop, if_neg (by omega), slideLoop, if_neg (by omega)]
  rw [minimumSubarrayLengthSw, ← hstart, hloop, pure_bind]

/-- **What is answered** where the bound stands for *not found*. -/
theorem answer_eq {top : ℤ} {good : ℕ → ℕ → Prop} (h : Accounted good N N top ans) :
    (goodLengths good N = ∅ → (if ans = top then -1 else ans) = -1) ∧
      ∀ m, IsLeast (goodLengths good N) m →
        (if ans = top then -1 else ans) = if (m : ℤ) < top then (m : ℤ) else -1 := by
  refine ⟨fun hnone => if_pos (h.eq_top hnone), fun m hm => ?_⟩
  rw [h.eq_min hm]
  split_ifs with hmin hlt hlt
  · omega
  · rfl
  · omega
  · omega

/-- The two versions return the same value; nothing is observed. -/
def SameLength (nums : List ℕ) (k : ℤ) : Prop := ∃ ans, minimumSubarrayLengthBf nums k = pure ans ∧
  minimumSubarrayLengthSw (fun _ _ _ _ => pure ()) nums k = pure ans

theorem sameLength_iff_answers (hnums : ∀ x ∈ nums, x < 2 ^ 30) (k : ℤ) : ∃ a b,
    Accounted (Qualifies nums k) (seen nums) (seen nums) 100 a ∧
      Accounted (Qualifies nums k) (seen nums) (seen nums) intMax b ∧
      (SameLength nums k ↔ (if a = 100 then -1 else a) = if b = intMax then -1 else b) := by
  obtain ⟨a, hbf, ha⟩ := bf_accounted nums k
  obtain ⟨b, hsw, hb⟩ := sw_accounted (accepts_pure nums) hnums k
  refine ⟨a, b, ha, hb, ?_⟩
  rw [SameLength, hbf, hsw]
  simp only [Exec.pure_inj, exists_eq_left']
  exact eq_comm

/-- **When the two versions return the same value**: exactly if, among the elements that are looked
at, no subarray qualifies, or the shortest one has less than `100` elements, or `INT_MAX`. -/
theorem sameLength_iff (hnums : ∀ x ∈ nums, x < 2 ^ 30) :
    SameLength nums k ↔ ∀ m : ℕ, IsLeast (goodLengths (Qualifies nums k) (seen nums)) m →
      m < 100 ∨ (m : ℤ) = intMax := by
  obtain ⟨a, b, ha, hb, hsame⟩ := sameLength_iff_answers hnums k
  rw [hsame]
  rcases exists_isLeast_or (Qualifies nums k) (seen nums) with hnone | ⟨m, hm⟩
  · rw [(answer_eq ha).1 hnone, (answer_eq hb).1 hnone]
    refine iff_of_true rfl fun m hm => ?_
    rw [hnone] at hm
    exact absurd hm.1 (Set.notMem_empty m)
  · obtain ⟨hpos, l, hl, -⟩ := hm.1
    have hmax := seen_le_intMax nums
    have honly : (∀ m' : ℕ, IsLeast (goodLengths (Qualifies nums k) (seen nums)) m' →
        m' < 100 ∨ (m' : ℤ) = intMax) ↔ m < 100 ∨ (m : ℤ) = intMax :=
      ⟨fun h => h m hm, fun h m' hm' => hm'.unique hm ▸ h⟩
    rw [(answer_eq ha).2 m hm, (answer_eq hb).2 m hm, honly]
    simp only [intMax] at hmax ⊢
    split_ifs
    all_goals omega

/-- A subarray of two elements. -/
theorem sameLength_iff_two : SameLength [1, 2] 3 := by
  refine (sameLength_iff (by simp)).mpr fun m hm => .inl ?_
  obtain ⟨-, l, hl, -⟩ := hm.1
  have hle : seen [1, 2] ≤ 2 := seen_le [1, 2]
  omega

/-- A one and a two, and zeros between them. -/
def apart : List ℕ := 1 :: (List.replicate 98 0 ++ [2])

/-- Both ends are needed for a three. -/
theorem isLeast_apart : IsLeast (goodLengths (Qualifies apart 3) (seen apart)) 100 := by
  have hseen : seen apart = 100 := rfl
  have hleft : ¬ Qualifies apart 3 0 99 := by decide
  have hright : ¬ Qualifies apart 3 1 100 := by decide
  rw [hseen]
  refine ⟨⟨by omega, 0, by omega, by decide⟩, fun m ⟨hpos, l, hl, hgood⟩ => ?_⟩
  by_contra hlt
  rcases Nat.eq_zero_or_pos l with rfl | hl'
  · exact hleft (extends_qualifies apart 3 _ _ 0 99 (by omega) (by omega) (by omega) hgood)
  · exact hright (extends_qualifies apart 3 _ _ 1 100 hl' (by omega) hl hgood)

/-- A shortest subarray of `100` elements. -/
theorem not_sameLength : ¬ ∀ nums k, (∀ x ∈ nums, x < 2 ^ 30) → SameLength nums k := by
  intro h
  have hnums : ∀ x ∈ apart, x < 2 ^ 30 := by decide
  obtain ⟨a, b, ha, hb, hsame⟩ := sameLength_iff_answers hnums 3
  have heq := hsame.mp (h _ _ hnums)
  rw [(answer_eq ha).2 _ isLeast_apart, (answer_eq hb).2 _ isLeast_apart] at heq
  exact absurd heq (by decide)

/-- The window is right: the function returns the length of the shortest subarray, or `-1`, and
after each call of `func` the counts and the value are those of the window. -/
def Correct (nums : List ℕ) (k : ℤ) : Prop :=
  ∃ ans, minimumSubarrayLengthSw (fun _ _ _ _ => pure ()) nums k = pure ans ∧
    minimumSubarrayLengthSw (counted nums) nums k = pure ans ∧ Shortest nums k ans

theorem accepts_counted (nums : List ℕ) : Accepts (counted nums) nums :=
  fun _ _ _ _ h => if_pos h

/-- What is answered does not depend on what is observed. -/
theorem accounted_unique {good : ℕ → ℕ → Prop} {top a b : ℤ} (ha : Accounted good N N top a)
    (hb : Accounted good N N top b) : a = b :=
  eq_of_forall_le_iff fun z => (ha z).trans (hb z).symm

theorem correct_iff_shortest (hnums : ∀ x ∈ nums, x < 2 ^ 30) : ∃ ans,
    Accounted (Qualifies nums k) (seen nums) (seen nums) intMax ans ∧
      (Correct nums k ↔ Shortest nums k (if ans = intMax then -1 else ans)) := by
  obtain ⟨a, hsw, ha⟩ := sw_accounted (accepts_pure nums) hnums k
  obtain ⟨b, hcounted, hb⟩ := sw_accounted (accepts_counted nums) hnums k
  obtain rfl := accounted_unique ha hb
  refine ⟨a, ha, ?_⟩
  rw [Correct, hsw, hcounted]
  constructor
  · rintro ⟨ans, hans, -, h⟩
    rwa [Exec.pure_inj.mp hans]
  · intro h
    exact ⟨_, rfl, rfl, h⟩

/-- **When the window is right**: exactly if a shortest subarray that qualifies, where there is one,
is found among the elements that are looked at, and has less than `INT_MAX` elements. -/
theorem sw_iff (hnums : ∀ x ∈ nums, x < 2 ^ 30) :
    Correct nums k ↔ ∀ m : ℕ, IsLeast (goodLengths (Qualifies nums k) nums.length) m →
      m ∈ goodLengths (Qualifies nums k) (seen nums) ∧ (m : ℤ) < intMax := by
  obtain ⟨ans, hans, hcorrect⟩ := correct_iff_shortest (k := k) hnums
  rw [hcorrect]
  have hsub : goodLengths (Qualifies nums k) (seen nums) ⊆
      goodLengths (Qualifies nums k) nums.length := fun m ⟨hpos, l, hl, hgood⟩ =>
    ⟨hpos, l, hl.trans (seen_le nums), hgood⟩
  rcases exists_isLeast_or (Qualifies nums k) nums.length with hnone | ⟨m, hm⟩
  · refine iff_of_true (.inr ⟨hnone, (answer_eq hans).1 ?_⟩) fun m hm => ?_
    · exact Set.subset_eq_empty hsub hnone
    · rw [hnone] at hm
      exact absurd hm.1 (Set.notMem_empty m)
  · have hpos := hm.1.1
    constructor
    · rintro (⟨m', hm', heq⟩ | ⟨hnone, -⟩) m'' hm''
      · obtain rfl := hm'.unique hm
        obtain rfl := hm''.unique hm
        rcases exists_isLeast_or (Qualifies nums k) (seen nums) with hnone | ⟨s, hs⟩
        · rw [(answer_eq hans).1 hnone] at heq
          omega
        · rw [(answer_eq hans).2 s hs] at heq
          split_ifs at heq with hlt
          obtain rfl : s = m'' := by omega
          exact ⟨hs.1, hlt⟩
      · rw [hnone] at hm
        exact absurd hm.1 (Set.notMem_empty m)
    · intro h
      obtain ⟨hmem, hlt⟩ := h m hm
      have hs : IsLeast (goodLengths (Qualifies nums k) (seen nums)) m :=
        ⟨hmem, fun m' hm' => hm.2 (hsub hm')⟩
      exact .inl ⟨m, hm, by rw [(answer_eq hans).2 m hs, if_pos hlt]⟩

/-- A subarray of two elements. -/
theorem sw_iff_two : Correct [1, 2] 3 := by
  refine (sw_iff (by simp)).mpr fun m hm => ?_
  rw [seen_eq (by decide)]
  obtain ⟨-, l, hl, -⟩ := hm.1
  rw [List.length_cons, List.length_singleton] at hl
  refine ⟨hm.1, ?_⟩
  rw [intMax]
  omega

/-- So many ones that `n` is negative. -/
theorem not_correct : ¬ ∀ nums k, (∀ x ∈ nums, x < 2 ^ 30) → Correct nums k := by
  intro h
  obtain ⟨n, hn⟩ : ∃ n, n = 2147483648 := ⟨_, rfl⟩
  have hnums : ∀ x ∈ List.replicate n 1, x < 2 ^ 30 := fun x hx => by
    rw [List.eq_of_mem_replicate hx]
    norm_num
  have hsize : size (List.replicate n 1) = -2147483648 := by
    unfold size
    rw [List.length_replicate, hn]
    norm_num [Int.bmod]
  have hseen : seen (List.replicate n 1) = 0 := by
    rw [seen, hsize]
    rfl
  obtain ⟨ans, hans, hcorrect⟩ := correct_iff_shortest (k := 1) hnums
  have hempty : goodLengths (Qualifies (List.replicate n 1) 1) (seen (List.replicate n 1)) = ∅ := by
    rw [hseen]
    exact Set.eq_empty_of_forall_notMem fun m ⟨hpos, l, hl, _⟩ => by omega
  have hshort := hcorrect.mp (h _ 1 hnums)
  rw [(answer_eq hans).1 hempty] at hshort
  rcases hshort with ⟨m, -, hm⟩ | ⟨hnone, -⟩
  · omega
  · have hone : (List.replicate n 1)[0]? = some 1 := by
      rw [List.getElem?_replicate, if_pos (by omega)]
    have hmem : 1 ∈ goodLengths (Qualifies (List.replicate n 1) 1) (List.replicate n 1).length := by
      refine ⟨by omega, 0, by rw [List.length_replicate]; omega, ?_⟩
      rw [Qualifies, between_cons (by omega) hone, between_self]
      decide
    rw [hnone] at hmem
    exact absurd hmem (Set.notMem_empty 1)

end MinimumSubarrayLength

end Candcpp
