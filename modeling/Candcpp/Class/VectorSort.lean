import Candcpp.Class.Vector
import Candcpp.Order.BinaryHeap

/-!
# Sorting a vector

The method `sort` of `vector.h`, a bubble sort. The outer loop compares its counter, an `int`, with
`size - 1`, a `size_t`; the inner one starts at the `int` that this number is converted to.

For a vector of one element or more, up to `2 ^ 31`, each round of the outer loop brings the least
of the elements that are left to the front of them (`Candcpp.Vector.bubble_spec`), and the elements
are sorted in the end (`Candcpp.Vector.sortLoop_spec`). For an empty vector `size - 1` is the
greatest value of a `size_t`, which no `int` reaches: the counter overflows, and so it does for a
vector of more elements than that (`Candcpp.Vector.le_intMax_of_sortLoop`). **So `sort` sorts
exactly the vectors of at least one and at most `2 ^ 31` elements** (`Candcpp.Vector.sort_iff`).
-/

namespace Candcpp

open Cpp

namespace Vector

variable {α : Type} {heap heap' : Mem (Arr α)} {arr : Arr α} {a : Addr} {v : Vector} {i j n : ℕ}
  {l : List α}

/-! ### The numbers of the loops -/

/-- `size - 1` of a vector that is not empty. -/
theorem last_eq (h : v.size = n + 1) (hn : n < sizeMod) : v.last = n := by
  rw [last, h, show n + 1 + (sizeMod - 1) = n + sizeMod by rw [sizeMod]; omega,
    Nat.add_mod_right, Nat.mod_eq_of_lt hn]

/-- `size - 1` of an empty vector. -/
theorem last_zero (h : v.size = 0) : v.last = sizeMod - 1 := by
  rw [last, h]
  rfl

theorem toInt_eq (h : (n : ℤ) ≤ intMax) : toInt n = n := by
  rw [intMax] at h
  exact Int.bmod_eq_of_le (by omega) (by omega)

/-- The counter of the outer loop is the value of an `int` as long as the loop lasts. -/
theorem le_intMax_of_sortLoop {lt : α → α → Bool} {k : ℤ} (hk : k ≤ intMax)
    (h : sortLoop lt heap v k n = pure heap') : k + n ≤ intMax := by
  induction n generalizing heap k with
  | zero => simpa using hk
  | succ n ih =>
    obtain ⟨heap₁, -, h⟩ := Exec.bind_eq_pure.mp h
    obtain ⟨k', hk', h⟩ := Exec.bind_eq_pure.mp h
    obtain ⟨⟨-, hle⟩, rfl⟩ := int_eq_pure.mp hk'
    have hrest := ih hle h
    push_cast at hrest ⊢
    omega

/-! ### The loops -/

/-- **`swap_` exchanges** two elements. -/
theorem swap_eq (h : heap a = some arr) (hi : i < arr.size) (hj : j < arr.size) (hne : i ≠ j) :
    swap_ heap (some a) i j =
      pure (heap.set a { arr with data := arr.data ∘ Equiv.swap i j }) := by
  have hput := Mem.putAt_eq h hi (arr.data j)
  have hput' := Mem.putAt_eq (Mem.set_self heap a
    { arr with data := Function.update arr.data i (arr.data j) }) hj (arr.data i)
  rw [swap_, Mem.getAt_eq h hi, pure_bind, Mem.getAt_eq h hj, pure_bind, hput, pure_bind, hput',
    Mem.set_set, BinaryHeap.update_hole _ _ hne, Function.update_eq_self]

/-- The elements of a vector that fits in its buffer. -/
theorem elements_eq (ha : v.data = some a) (h : heap a = some arr) (hle : v.size ≤ arr.size) :
    elements heap v = some ((List.range v.size).map arr.data) := by
  rw [elements, ha, Option.bind_some, h, Option.map_some, Arr.toList, ← List.map_take,
    List.take_range, min_eq_left hle]

variable [LinearOrder α]

/-- **One round of the inner loop** puts two neighbours in order. -/
theorem exchange_spec (h : heap a = some arr) (hn : n + 1 < arr.size) : ∃ data,
    (∀ f : Mem (Arr α) → Exec (Mem (Arr α)),
      (if decide (arr.data (n + 1) < arr.data n) then
          swap_ heap (some a) (n + 1 : ℕ) n >>= f
        else pure heap >>= f) = f (heap.set a { arr with data := data })) ∧
      Rearranged n (n + 1) arr.data data ∧ data n ≤ data (n + 1) := by
  by_cases hlt : arr.data (n + 1) < arr.data n
  · refine ⟨arr.data ∘ Equiv.swap (n + 1) n, fun f => ?_, .swap (by omega) (by omega), ?_⟩
    · rw [if_pos (decide_eq_true hlt), swap_eq h hn (by omega) (by omega), pure_bind]
    · simpa using hlt.le
  · refine ⟨arr.data, fun f => ?_, .refl _ _ _, not_lt.mp hlt⟩
    rw [if_neg (by simpa using hlt), pure_bind, Mem.set_eq_self h]

/-- **The inner loop** brings the least element to the front. -/
theorem bubble_spec (h : heap a = some arr) (hn : i + n < arr.size) : ∃ data,
    bubble (fun x y => decide (x < y)) heap (some a) i n =
        pure (heap.set a { arr with data := data }) ∧
      Rearranged i (i + n) arr.data data ∧ ∀ m, i ≤ m → m ≤ i + n → data i ≤ data m := by
  induction n generalizing heap arr with
  | zero =>
    refine ⟨arr.data, congrArg pure (Mem.set_eq_self h).symm, .refl _ _ _, fun m hm hm' => ?_⟩
    obtain rfl : i = m := by omega
    exact le_rfl
  | succ n ih =>
    obtain ⟨data₁, hstep, hr₁, hle⟩ := exchange_spec h (n := i + n) hn
    obtain ⟨data, hrun, hr, hmin⟩ :=
      ih (Mem.set_self heap a { arr with data := data₁ }) (show i + n < arr.size by omega)
    have hj : (i : ℤ) + n + 1 = (i + n + 1 : ℕ) := by push_cast; rfl
    have hj' : (i : ℤ) + n + 1 - 1 = (i + n : ℕ) := by push_cast; ring
    refine ⟨data, ?_, (hr₁.mono (by omega) le_rfl).trans (hr.mono le_rfl (by omega)), ?_⟩
    · rw [bubble]
      dsimp only
      rw [hj', hj, Mem.getAt_eq h (i := i + n + 1) hn, pure_bind, Mem.getAt_eq h (by omega),
        pure_bind, hstep, hrun, Mem.set_set]
    · intro m hm hm'
      by_cases hlast : m = i + n + 1
      · -- what was least before the exchange is still among the elements in front
        rw [hlast, hr.outside (.inr (Nat.lt_succ_self _))]
        exact (hr.symm.all hmin (by omega) le_rfl).trans hle
      · exact hmin m hm (by omega)

/-- **The outer loop** sorts what is left. -/
theorem sortLoop_spec (ha : v.data = some a) (h : heap a = some arr) (hsize : v.size = i + n + 1)
    (hle : v.size ≤ arr.size) (hint : ((i + n : ℕ) : ℤ) ≤ intMax)
    (hsorted : SortedTo arr.data v.size i) : ∃ data,
      sortLoop (fun x y => decide (x < y)) heap v i n =
          pure (heap.set a { arr with data := data }) ∧
        Rearranged 0 (i + n) arr.data data ∧ SortedTo data v.size (i + n) := by
  induction n generalizing heap arr i with
  | zero => exact ⟨arr.data, congrArg pure (Mem.set_eq_self h).symm, .refl _ _ _, hsorted⟩
  | succ n ih =>
    have hmod : i + (n + 1) < sizeMod := by
      rw [intMax] at hint
      rw [sizeMod]
      omega
    -- there is an element, so that `size - 1` does not wrap around
    have hlast : toInt v.last - i = (n + 1 : ℕ) := by
      rw [last_eq hsize hmod, toInt_eq hint]
      push_cast
      ring
    obtain ⟨data₁, hbubble, hr₁, hmin⟩ := bubble_spec h (i := i) (n := n + 1) (by omega)
    have hsorted₁ := hsorted.extend hr₁ hsize.symm hmin
    obtain ⟨data, hrun, hr, hsorted'⟩ := ih (i := i + 1)
      (Mem.set_self heap a { arr with data := data₁ }) (by omega) hle
      (by push_cast at hint ⊢; omega) hsorted₁
    have hadd : i + 1 + n = i + (n + 1) := by omega
    rw [hadd] at hr hsorted'
    refine ⟨data, ?_, (hr₁.mono (Nat.zero_le i) le_rfl).trans hr, hsorted'⟩
    have hi : int ((i : ℤ) + 1) = pure ((i + 1 : ℕ) : ℤ) := by
      rw [← Nat.cast_succ, Mem.int_natCast (by push_cast at hint ⊢; omega)]
    rw [sortLoop, hlast, Int.toNat_natCast, ha, hbubble, pure_bind, hi, pure_bind, hrun,
      Mem.set_set]

/-! ### Sorting -/

/-- **`sort` sorts a vector** exactly if it is not empty, and has at most `2 ^ 31` elements. -/
theorem sort_iff (h : Stores heap v l) (hc : v.capacity < sizeMod) :
    (∃ heap' l', sort (fun x y => decide (x < y)) heap v = pure heap' ∧ Stores heap' v l' ∧
        l'.Pairwise (· ≤ ·) ∧ l'.Perm l) ↔
      1 ≤ v.size ∧ v.size ≤ 2 ^ 31 := by
  obtain ⟨a, arr, ha, harr, hsize⟩ := h.buffer
  have hle : v.size ≤ arr.size := hsize ▸ h.size_le
  constructor
  · rintro ⟨heap', -, hrun, -⟩
    have hlast := le_intMax_of_sortLoop (by decide) hrun
    rw [zero_add, intMax] at hlast
    -- the outer loop has come to its bound, which `int i` has to reach
    rcases Nat.eq_zero_or_pos v.size with hzero | hpos
    · rw [last_zero hzero, sizeMod] at hlast
      omega
    · obtain ⟨n, hn⟩ := Nat.exists_eq_succ_of_ne_zero (Nat.ne_of_gt hpos)
      rw [last_eq hn (by have := h.size_le; omega)] at hlast
      omega
  · rintro ⟨hpos, hmax⟩
    obtain ⟨n, hn⟩ := Nat.exists_eq_succ_of_ne_zero (Nat.ne_of_gt hpos)
    have hnmod : n < sizeMod := by have := h.size_le; omega
    obtain ⟨data, hrun, hr, hsorted⟩ := sortLoop_spec ha harr (i := 0) (n := n) (by omega) hle
      (by rw [intMax]; omega) (sortedTo_zero _ _)
    have hl : l = (List.range v.size).map arr.data :=
      Option.some.inj (h.elements_eq.symm.trans (elements_eq ha harr hle))
    have hself := Mem.set_self heap a { arr with data := data }
    refine ⟨_, (List.range v.size).map data, ?_,
      ⟨h.size_le, ⟨a, _, ha, hself, hsize⟩, elements_eq ha hself hle⟩,
      hsorted.pairwise (by omega), ?_⟩
    · rw [sort, last_eq hn hnmod]
      exact hrun
    · rw [hl]
      exact hr.perm (by omega)

/-- A vector of three elements. -/
theorem sort_iff_three : ∃ heap' l',
    sort (fun x y : ℤ => decide (x < y)) (fun _ => some ⟨fun i => 3 - i, 4⟩)
        { capacity := 4, size := 3, data := some 0 } = pure heap' ∧
      Stores heap' { capacity := 4, size := 3, data := some 0 } l' ∧
      l'.Pairwise (· ≤ ·) ∧ l'.Perm [3, 2, 1] := by
  have h : Stores (fun _ => some ⟨fun i => (3 - i : ℤ), 4⟩)
      { capacity := 4, size := 3, data := some 0 } [3, 2, 1] :=
    ⟨by decide, ⟨0, _, rfl, rfl, rfl⟩, rfl⟩
  exact (sort_iff h (by decide)).mpr ⟨by decide, by decide⟩

/-- An empty vector is not sorted: the counter of the outer loop overflows. -/
theorem not_sort : ¬ ∀ (heap : Mem (Arr ℤ)) (v : Vector) (l : List ℤ), Stores heap v l →
    v.capacity < sizeMod → ∃ heap' l', sort (fun x y => decide (x < y)) heap v = pure heap' ∧
      Stores heap' v l' ∧ l'.Pairwise (· ≤ ·) ∧ l'.Perm l := by
  intro h
  obtain ⟨heap', -, hrun, -⟩ := h (fun _ => some ⟨fun _ => 0, 4⟩)
    { capacity := 4, size := 0, data := some 0 } [] ⟨by decide, ⟨0, _, rfl, rfl, rfl⟩, rfl⟩
    (by decide)
  have hlast := le_intMax_of_sortLoop (by decide) hrun
  rw [last_zero rfl, sizeMod, intMax] at hlast
  omega

end Vector

end Candcpp
