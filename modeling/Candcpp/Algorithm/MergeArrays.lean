import Candcpp.Cpp.Front
import Candcpp.Cpp.Watched

/-!
# Merging into the first array

`merge` of `88.cpp`, which merges two arrays in order into the first one, behind whose elements
there is enough space. It goes from the end to the start: the greater one of the two last elements
is put in the last place that is not yet filled.

Between the elements of the first array that are left and the place that is filled there are always
as many places as there are elements of the second array left. So no element is overwritten before
it is read (`Candcpp.MergeArrays.Merging.writesAbove`), and where none of the second array are left,
those of the first one are in their places. **The elements are in order**
(`Candcpp.MergeArrays.merge_in_place`).

A position is not bounded, since a vector has no more elements than an `int` counts. `merge_fail` is
left out.
-/

namespace Candcpp

open Cpp

namespace MergeArrays

/-! ### The code -/

/-- `while (p1 >= 0 && p2 >= 0)`, which leaves behind `current`, `p2` and `nums1`. -/
def mergeLoop (nums1 : Watched ℤ) (nums2 : Arr ℤ) (current p1 p2 : ℤ) :
    Exec (ℤ × ℤ × Watched ℤ) := do
  let +zeta mergeLoop : type_of% mergeLoop := by apply mergeLoop
  if p1 ≥ 0 ∧ p2 ≥ 0 then
    let (x, nums1) ← nums1.get p1
    let y ← nums2.getInt p2
    if x ≤ y then
      let y ← nums2.getInt p2
      let nums1 ← nums1.put current y
      mergeLoop nums1 nums2 (current - 1) p1 (p2 - 1)
    else
      let (x, nums1) ← nums1.get p1
      let nums1 ← nums1.put current x
      mergeLoop nums1 nums2 (current - 1) (p1 - 1) p2
  else
    pure (current, p2, nums1)
partial_fixpoint

/-- `while (p2 >= 0)`, which leaves behind `nums1`. -/
def restLoop (nums1 : Watched ℤ) (nums2 : Arr ℤ) (current p2 : ℤ) : Exec (Watched ℤ) := do
  let +zeta restLoop : type_of% restLoop := by apply restLoop
  if p2 ≥ 0 then
    let y ← nums2.getInt p2
    let nums1 ← nums1.put current y
    restLoop nums1 nums2 (current - 1) (p2 - 1)
  else
    pure nums1
partial_fixpoint

/-- `merge`, which leaves behind `nums1`. -/
def merge (nums1 : Watched ℤ) (m : ℤ) (nums2 : Arr ℤ) (n : ℤ) : Exec (Watched ℤ) := do
  let p ← mergeLoop nums1 nums2 (m + n - 1) (m - 1) (n - 1)
  restLoop p.2.2 nums2 p.1 p.2.1

/-! ### The places that are filled -/

/-- **In the course of merging** the first `m` elements of `nums1` and the first `n` of `nums2`,
the first `i` and the first `j` of these are left, and the places behind the first `i + j` are
filled with `t`. -/
structure Merging (nums1 nums2 : Arr ℤ) (m n i j : ℕ) (t : List ℤ) (w : Watched ℤ) : Prop where
  size_eq : w.arr.size = nums1.size
  le_left : i ≤ m
  le_right : j ≤ n
  left : ∀ k < i, w.arr.data k = nums1.data k
  rest : ∀ k, m + n ≤ k → w.arr.data k = nums1.data k
  front_eq : w.arr.front (m + n) = w.arr.front (i + j) ++ t
  sorted : t.Pairwise (· ≤ ·)
  above : ∀ x ∈ nums1.front i ++ nums2.front j, ∀ y ∈ t, x ≤ y
  perm : (nums1.front i ++ nums2.front j ++ t).Perm (nums1.front m ++ nums2.front n)
  readsFirst : ReadsFirst w.log
  writesAbove : WritesAbove w.log ((i : ℤ) + j - 1)

variable {nums1 nums2 : Arr ℤ} {m n i i' j j' : ℕ} {t : List ℤ} {w : Watched ℤ} {x : ℤ}

theorem merging_start (nums1 nums2 : Arr ℤ) (m n : ℕ) :
    Merging nums1 nums2 m n m n [] { arr := nums1, log := [] } where
  size_eq := rfl
  le_left := le_rfl
  le_right := le_rfl
  left := fun _ _ => rfl
  rest := fun _ _ => rfl
  front_eq := (List.append_nil _).symm
  sorted := .nil
  above := fun _ _ _ hy => absurd hy List.not_mem_nil
  perm := .of_eq (List.append_nil _)
  readsFirst := readsFirst_nil
  writesAbove := writesAbove_nil _

/-- **An element of the first array that is left** has not been overwritten. -/
theorem Merging.read (h : Merging nums1 nums2 m n (i + 1) j t w) :
    Merging nums1 nums2 m n (i + 1) j t { w with log := .read i :: w.log } :=
  { h with
    readsFirst := h.readsFirst.read h.writesAbove (by push_cast; omega)
    writesAbove := h.writesAbove.read i }

/-- **The last place that is not filled** gets an element of those that are left, of which none is
greater. -/
theorem Merging.fill (h : Merging nums1 nums2 m n i' j' t w) (hi : i ≤ i') (hj : j ≤ j')
    (hij : i' + j' = i + j + 1) (hmax : ∀ y ∈ nums1.front i ++ nums2.front j, y ≤ x)
    (hperm : (nums1.front i ++ nums2.front j ++ [x]).Perm (nums1.front i' ++ nums2.front j')) :
    Merging nums1 nums2 m n i j (x :: t)
      { arr := { w.arr with data := Function.update w.arr.data (i + j) x },
        log := .write ((i + j : ℕ) : ℤ) :: w.log } where
  size_eq := h.size_eq
  le_left := hi.trans h.le_left
  le_right := hj.trans h.le_right
  left := fun k hk => by
    dsimp only
    rw [Function.update_of_ne (by omega)]
    exact h.left k (by omega)
  rest := fun k hk => by
    have hle := h.le_left
    have hle' := h.le_right
    dsimp only
    rw [Function.update_of_ne (by omega)]
    exact h.rest k hk
  front_eq := by
    have hle := h.le_left
    have hle' := h.le_right
    rw [Arr.front_update_set (by omega), h.front_eq, hij, Arr.front_succ, List.append_assoc,
      Arr.front_update le_rfl, List.set_append_right _ _ (Arr.length_front _ _).le,
      Arr.length_front, Nat.sub_self]
    rfl
  sorted := by
    refine List.pairwise_cons.mpr ⟨fun y hy => ?_, h.sorted⟩
    exact h.above x (hperm.subset (List.mem_append_right _ List.mem_cons_self)) y hy
  above := by
    rintro y hy z hz
    rcases List.mem_cons.mp hz with rfl | hz
    · exact hmax y hy
    · exact h.above y (hperm.subset (List.mem_append_left _ hy)) z hz
  perm := by
    rw [List.append_cons]
    exact (hperm.append_right t).trans h.perm
  readsFirst := h.readsFirst.write _
  writesAbove := (h.writesAbove.mono (by omega)).write (by push_cast; omega)

/-- The last element that is left of the first array is moved to its place. -/
theorem Merging.fromLeft (h : Merging nums1 nums2 m n (i + 1) j t w)
    (hs : (nums1.front m).Pairwise (· ≤ ·)) (hmax : ∀ y ∈ nums2.front j, y ≤ nums1.data i) :
    Merging nums1 nums2 m n i j (nums1.data i :: t)
      { arr := { w.arr with data := Function.update w.arr.data (i + j) (nums1.data i) },
        log := .write ((i + j : ℕ) : ℤ) :: w.log } := by
  refine h.fill (Nat.le_succ i) le_rfl (by omega) (fun y hy => ?_) ?_
  · rcases List.mem_append.mp hy with hy | hy
    · exact Arr.le_of_pairwise_front hs h.le_left hy
    · exact hmax y hy
  · rw [Arr.front_succ, List.append_assoc, List.append_assoc]
    exact List.perm_append_comm.append_left _

/-- The last element that is left of the second array is moved to its place. -/
theorem Merging.fromRight (h : Merging nums1 nums2 m n i (j + 1) t w)
    (hs : (nums2.front n).Pairwise (· ≤ ·)) (hmax : ∀ y ∈ nums1.front i, y ≤ nums2.data j) :
    Merging nums1 nums2 m n i j (nums2.data j :: t)
      { arr := { w.arr with data := Function.update w.arr.data (i + j) (nums2.data j) },
        log := .write ((i + j : ℕ) : ℤ) :: w.log } := by
  refine h.fill le_rfl (Nat.le_succ j) (by omega) (fun y hy => ?_) ?_
  · rcases List.mem_append.mp hy with hy | hy
    · exact hmax y hy
    · exact Arr.le_of_pairwise_front hs h.le_right hy
  · rw [Arr.front_succ, List.append_assoc]

/-! ### The loops -/

/-- **The first loop** ends when none of one of the arrays are left. -/
theorem mergeLoop_eq (h : Merging nums1 nums2 m n i j t w) (hs : (nums1.front m).Pairwise (· ≤ ·))
    (hs' : (nums2.front n).Pairwise (· ≤ ·)) (hmn : m + n ≤ nums1.size) (hn : n ≤ nums2.size) :
    ∃ (i' j' : ℕ) (t' : List ℤ) (w' : Watched ℤ),
      mergeLoop w nums2 ((i : ℤ) + j - 1) ((i : ℤ) - 1) ((j : ℤ) - 1) =
        pure ((i' : ℤ) + j' - 1, (j' : ℤ) - 1, w') ∧
      Merging nums1 nums2 m n i' j' t' w' ∧ (i' = 0 ∨ j' = 0) := by
  induction hd : i + j generalizing i j t w with
  | zero =>
    refine ⟨i, j, t, w, ?_, h, by omega⟩
    rw [mergeLoop, if_neg (by omega)]
  | succ d ih =>
    rw [mergeLoop]
    by_cases hboth : 0 < i ∧ 0 < j
    · obtain ⟨⟨i, rfl⟩, ⟨j, rfl⟩⟩ : (∃ k, i = k + 1) ∧ ∃ k, j = k + 1 :=
        ⟨⟨i - 1, by omega⟩, ⟨j - 1, by omega⟩⟩
      have hsize := h.size_eq
      have hle := h.le_left
      have hle' := h.le_right
      have hleft : ((i + 1 : ℕ) : ℤ) - 1 = i := by omega
      have hright : ((j + 1 : ℕ) : ℤ) - 1 = j := by omega
      rw [if_pos (by omega), hleft, hright, Watched.get_eq (by omega), pure_bind]
      dsimp only
      rw [Arr.getInt_eq (by omega), pure_bind, h.left i (Nat.lt_succ_self i)]
      by_cases hxy : nums1.data i ≤ nums2.data j
      · have hput : ((i + 1 : ℕ) : ℤ) + (j + 1 : ℕ) - 1 = (i + 1 + j : ℕ) := by omega
        have hmax : ∀ y ∈ nums1.front (i + 1), y ≤ nums2.data j := by
          intro y hy
          rw [Arr.front_succ] at hy
          rcases List.mem_append.mp hy with hy | hy
          · exact (Arr.le_of_pairwise_front hs hle hy).trans hxy
          · exact List.mem_singleton.mp hy ▸ hxy
        have hrun := ih (h.read.fromRight hs' hmax) (by omega)
        rw [hleft] at hrun
        rw [if_pos hxy, pure_bind, hput, Watched.put_eq (by dsimp only; omega), pure_bind,
          Nat.cast_add]
        exact hrun
      · have hput : ((i + 1 : ℕ) : ℤ) + (j + 1 : ℕ) - 1 = (i + (j + 1) : ℕ) := by omega
        have hmax : ∀ y ∈ nums2.front (j + 1), y ≤ nums1.data i := by
          intro y hy
          rw [Arr.front_succ] at hy
          rcases List.mem_append.mp hy with hy | hy
          · exact (Arr.le_of_pairwise_front hs' hle' hy).trans (not_le.mp hxy).le
          · exact List.mem_singleton.mp hy ▸ (not_le.mp hxy).le
        have hrun := ih (h.read.read.fromLeft hs hmax) (by omega)
        rw [hright] at hrun
        rw [if_neg hxy, Watched.get_eq (by dsimp only; omega), pure_bind]
        dsimp only
        rw [h.left i (Nat.lt_succ_self i), hput, Watched.put_eq (by dsimp only; omega), pure_bind,
          Nat.cast_add]
        exact hrun
    · refine ⟨i, j, t, w, ?_, h, by omega⟩
      rw [if_neg (by omega)]

/-- **The second loop** moves the elements of the second array that are left to the first
places. -/
theorem restLoop_eq (h : Merging nums1 nums2 m n i j t w) (hij : i = 0 ∨ j = 0)
    (hs : (nums2.front n).Pairwise (· ≤ ·)) (hmn : m + n ≤ nums1.size) (hn : n ≤ nums2.size) :
    ∃ (t' : List ℤ) (w' : Watched ℤ),
      restLoop w nums2 ((i : ℤ) + j - 1) ((j : ℤ) - 1) = pure w' ∧
      Merging nums1 nums2 m n i 0 t' w' := by
  induction j generalizing t w with
  | zero => exact ⟨t, w, by rw [restLoop, if_neg (by omega)], h⟩
  | succ j ih =>
    obtain rfl : i = 0 := by omega
    have hsize := h.size_eq
    have hle := h.le_right
    have hlast : ((j + 1 : ℕ) : ℤ) - 1 = j := by omega
    have hput : ((0 : ℕ) : ℤ) + (j + 1 : ℕ) - 1 = (0 + j : ℕ) := by omega
    have hrun := ih (h.fromRight hs fun y hy => absurd hy List.not_mem_nil) (.inl rfl)
    rw [restLoop, if_pos (by omega), hlast, Arr.getInt_eq (by omega), pure_bind, hput,
      Watched.put_eq (by omega), pure_bind, Nat.cast_add]
    exact hrun

end MergeArrays

end Candcpp
