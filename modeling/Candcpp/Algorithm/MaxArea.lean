import Candcpp.Cpp.Exec
import Candcpp.Order.Pairs

/-!
# The container with the greatest area

The two versions of `11.cpp`, which choose two bars such that as much water as possible stands
between them. `maxArea_bf` looks at all pairs of bars. `maxArea` looks at the two outermost ones,
and then leaves out the lower one of these: with any bar in between it holds less
(`Candcpp.MaxArea.area_le_left`, `Candcpp.MaxArea.area_le_right`), as the water is not higher than
the lower bar. If both are equally high, either one can be left out.

So **both versions return the greatest area** (`Candcpp.MaxArea.same_area`).

The arithmetic is exact. A position is not bounded, since a vector has no more elements than an
`int` counts.
-/

namespace Candcpp

open Cpp

namespace MaxArea

/-! ### The code -/

/-- `for (int j = i + 1; j < height.size(); ++j)`, which leaves behind `_max`. -/
def pairLoop (height : List ℤ) (i j max' : ℤ) : Exec ℤ := do
  let +zeta pairLoop : type_of% pairLoop := by apply pairLoop
  if j < height.length then
    let x ← nth height i
    let y ← nth height j
    pairLoop height i (j + 1) (max max' ((j - i) * min x y))
  else
    pure max'
partial_fixpoint

/-- `for (int i = 0; i < height.size(); ++i)`, which leaves behind `_max`. -/
def bfLoop (height : List ℤ) (i max' : ℤ) : Exec ℤ := do
  let +zeta bfLoop : type_of% bfLoop := by apply bfLoop
  if i < height.length then
    let max' ← pairLoop height i (i + 1) max'
    bfLoop height (i + 1) max'
  else
    pure max'
partial_fixpoint

/-- `maxArea_bf`. -/
def maxAreaBf (height : List ℤ) : Exec ℤ := bfLoop height 0 (-1)

/-- `while (l != r)`, which leaves behind `ans`. -/
def narrowLoop (height : List ℤ) (l r ans : ℤ) : Exec ℤ := do
  let +zeta narrowLoop : type_of% narrowLoop := by apply narrowLoop
  if l ≠ r then
    let x ← nth height l
    let y ← nth height r
    if x ≤ y then
      narrowLoop height (l + 1) r (max ans (x * (r - l)))
    else
      narrowLoop height l (r - 1) (max ans (y * (r - l)))
  else
    pure ans
partial_fixpoint

/-- `maxArea`. -/
def maxArea (height : List ℤ) : Exec ℤ := narrowLoop height 0 ((height.length : ℤ) - 1) 0

/-! ### The areas -/

/-- The heights, as a sequence. -/
def bars (height : List ℤ) (i : ℕ) : ℤ := height.getD i 0

/-- The area between two bars. -/
def area (height : List ℤ) (i j : ℕ) : ℤ := ((j : ℤ) - i) * min (bars height i) (bars height j)

/-- The areas between any two bars. -/
def areas (height : List ℤ) : Set ℤ := values (area height) height.length

variable {height : List ℤ} {i j k l r : ℕ} {m : ℤ}

theorem nth_bars (hi : i < height.length) : nth height i = pure (bars height i) := nth_getD hi 0

theorem bars_nonneg (h : ∀ x ∈ height, 0 ≤ x) (i : ℕ) : 0 ≤ bars height i := by
  rw [bars]
  rcases Nat.lt_or_ge i height.length with hlt | hge
  · rw [List.getD_eq_getElem _ _ hlt]
    exact h _ (List.getElem_mem hlt)
  · rw [List.getD_eq_default _ _ hge]

theorem area_nonneg (h : ∀ x ∈ height, 0 ≤ x) (hij : i < j) : 0 ≤ area height i j :=
  mul_nonneg (by omega) (le_min (bars_nonneg h i) (bars_nonneg h j))

/-- **A bar that is not higher than the last one** holds most together with that one. -/
theorem area_le_left (h : ∀ x ∈ height, 0 ≤ x) (hle : bars height l ≤ bars height r) (hlj : l < j)
    (hjr : j ≤ r) : area height l j ≤ area height l r := by
  have hnonneg := bars_nonneg h l
  rw [area, area, min_eq_left hle]
  calc ((j : ℤ) - l) * min (bars height l) (bars height j)
      ≤ ((j : ℤ) - l) * bars height l :=
        mul_le_mul_of_nonneg_left (min_le_left _ _) (by omega)
    _ ≤ ((r : ℤ) - l) * bars height l := mul_le_mul_of_nonneg_right (by omega) hnonneg

/-- **A bar that is not higher than the first one** holds most together with that one. -/
theorem area_le_right (h : ∀ x ∈ height, 0 ≤ x) (hle : bars height r ≤ bars height l) (hir : i < r)
    (hli : l ≤ i) : area height i r ≤ area height l r := by
  have hnonneg := bars_nonneg h r
  rw [area, area, min_eq_right hle]
  calc ((r : ℤ) - i) * min (bars height i) (bars height r)
      ≤ ((r : ℤ) - i) * bars height r :=
        mul_le_mul_of_nonneg_left (min_le_right _ _) (by omega)
    _ ≤ ((r : ℤ) - l) * bars height r := mul_le_mul_of_nonneg_right (by omega) hnonneg

/-! ### All pairs -/

/-- The pairs from the one of `i` and `j` on are still to be looked at. -/
def From (i j k l : ℕ) : Prop := i < k ∨ i = k ∧ j ≤ l

/-- **The inner loop** looks at the pairs with `i`. -/
theorem pairLoop_eq (hij : i < j) (hj : j ≤ height.length)
    (hm : BestPair (area height) height.length (-1) (From i j) m) :
    ∃ m', pairLoop height i j m = pure m' ∧
      BestPair (area height) height.length (-1) (From (i + 1) (i + 2)) m' := by
  obtain ⟨d, hd⟩ := Nat.exists_eq_add_of_le hj
  induction d generalizing j m with
  | zero =>
    obtain rfl : height.length = j := hd
    refine ⟨m, by rw [pairLoop, if_neg (lt_irrefl _)], hm.congr fun k l hkl hl hrest => ?_⟩
    rw [From] at hrest ⊢
    omega
  | succ d ih =>
    rw [pairLoop, if_pos (by omega), nth_bars (by omega), pure_bind, nth_bars (by omega), pure_bind,
      ← Nat.cast_succ]
    refine ih (by omega) (by omega) ?_ (by omega)
    refine hm.look hij (by omega) fun k l hkl hl hrest => ?_
    rw [From] at hrest ⊢
    rcases hrest with hlt | ⟨rfl, hle⟩
    · exact .inl (.inl hlt)
    · rcases Nat.eq_or_lt_of_le hle with rfl | hlt
      · exact .inr le_rfl
      · exact .inl (.inr ⟨rfl, hlt⟩)

/-- **The outer loop** looks at all pairs. -/
theorem bfLoop_eq (hi : i ≤ height.length)
    (hm : BestPair (area height) height.length (-1) (From i (i + 1)) m) :
    ∃ m', bfLoop height i m = pure m' ∧
      BestPair (area height) height.length (-1) (fun _ _ => False) m' := by
  obtain ⟨d, hd⟩ := Nat.exists_eq_add_of_le hi
  induction d generalizing i m with
  | zero =>
    obtain rfl : height.length = i := hd
    refine ⟨m, by rw [bfLoop, if_neg (lt_irrefl _)], hm.congr fun k l hkl hl hrest => ?_⟩
    rw [From] at hrest
    omega
  | succ d ih =>
    obtain ⟨m', hrun, hm'⟩ := pairLoop_eq (Nat.lt_succ_self i) (by omega) hm
    rw [Nat.cast_succ] at hrun
    rw [bfLoop, if_pos (by omega), hrun, pure_bind, ← Nat.cast_succ]
    exact ih (by omega) hm' (by omega)

/-! ### Two pointers -/

/-- **The loop** leaves out the bars at the ends, one after the other. -/
theorem narrowLoop_eq (h : ∀ x ∈ height, 0 ≤ x) (hlr : l ≤ r) (hr : r < height.length)
    (hm : BestPair (area height) height.length 0 (Inside l r) m) :
    ∃ m', narrowLoop height l r m = pure m' ∧
      BestPair (area height) height.length 0 (fun _ _ => False) m' := by
  obtain ⟨d, hd⟩ := Nat.exists_eq_add_of_le hlr
  induction d generalizing l r m with
  | zero =>
    obtain rfl : r = l := hd
    refine ⟨m, by rw [narrowLoop, if_neg (not_not.mpr rfl)], hm.congr fun i j _ _ hrest => ?_⟩
    exact not_inside le_rfl hrest
  | succ d ih =>
    obtain ⟨r, rfl⟩ : ∃ q, r = q + 1 := ⟨l + d, by omega⟩
    have hlt : l < r + 1 := by omega
    rw [narrowLoop, if_pos (by omega), nth_bars (by omega), pure_bind, nth_bars hr, pure_bind]
    by_cases hle : bars height l ≤ bars height (r + 1)
    · have harea : bars height l * (((r + 1 : ℕ) : ℤ) - l) = area height l (r + 1) := by
        rw [area, min_eq_left hle, mul_comm]
      rw [if_pos hle, harea, ← Nat.cast_succ]
      refine ih (by omega) hr (hm.look hlt hr fun i j hij _ hrest => ?_) (by omega)
      rcases hrest.left with rfl | hrest'
      · exact .inr (area_le_left h hle hij hrest.2.2)
      · exact .inl hrest'
    · have hge := (not_le.mp hle).le
      have harea : bars height (r + 1) * (((r + 1 : ℕ) : ℤ) - l) = area height l (r + 1) := by
        rw [area, min_eq_right hge, mul_comm]
      rw [if_neg hle, harea, Nat.cast_succ, add_sub_cancel_right]
      refine ih (by omega) (by omega) (hm.look hlt hr fun i j hij _ hrest => ?_) (by omega)
      rcases hrest.right with rfl | hrest'
      · exact .inr (area_le_right h hge hij hrest.1)
      · exact .inl hrest'

/-- **Both versions return the greatest area** between two bars. -/
theorem same_area (hlen : 2 ≤ height.length) (h : ∀ x ∈ height, 0 ≤ x) :
    ∃ m, maxAreaBf height = pure m ∧ maxArea height = pure m ∧ IsGreatest (areas height) m := by
  have hnonneg : ∀ x ∈ areas height, 0 ≤ x := by
    rintro _ ⟨i, j, hij, -, rfl⟩
    exact area_nonneg h hij
  obtain ⟨m, hrun, hm⟩ := bfLoop_eq (i := 0) (Nat.zero_le height.length)
    (.start _ (-1) fun i j hij hj => by
      rw [From]
      omega)
  obtain ⟨m', hrun', hm'⟩ := narrowLoop_eq (l := 0) (r := height.length - 1) h (Nat.zero_le _)
    (by omega) (.start _ 0 fun i j hij hj => ⟨Nat.zero_le i, hij, by omega⟩)
  have hgreatest : IsGreatest (areas height) m :=
    hm.isGreatest hlen (fun _ _ _ _ => not_false) fun x hx => by
      have hx := hnonneg x hx
      omega
  have hgreatest' : IsGreatest (areas height) m' :=
    hm'.isGreatest hlen (fun _ _ _ _ => not_false) hnonneg
  obtain rfl := hgreatest.unique hgreatest'
  rw [Nat.cast_sub (by omega), Nat.cast_zero, Nat.cast_one] at hrun'
  exact ⟨m, hrun, hrun', hgreatest⟩

/-- Two equal bars. -/
theorem same_area_two : ∃ m, maxAreaBf [3, 3] = pure m ∧ maxArea [3, 3] = pure m ∧
    IsGreatest (areas [3, 3]) m :=
  same_area (by decide) (by decide)

end MaxArea

end Candcpp
