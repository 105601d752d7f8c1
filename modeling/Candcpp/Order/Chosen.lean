import Mathlib.Data.List.Permutation
import Mathlib.Data.List.Sort

/-!
# Choosing elements of a list

A number of elements of a list, in increasing order (`Candcpp.Chosen`): a list that is in order, and
in which each element occurs at most as often as in the other one. So they stand at different
positions. Looking for them one may sort the list first, and take them from left to right
(`Candcpp.chosen_iff_sublist`), or take them from left to right as they are, and sort them then
(`Candcpp.chosen_iff_sorted`).
-/

namespace Candcpp

variable {α : Type} {l m t : List α} {x y z : α} {k : ℕ}

/-- An element from left to right, and then the others. -/
theorem cons_sublist_iff_exists :
    (x :: m).Sublist l ↔ ∃ i : ℕ, l[i]? = some x ∧ m.Sublist (l.drop (i + 1)) := by
  induction l with
  | nil =>
    refine iff_of_false (fun h => List.cons_ne_nil x m (List.sublist_nil.mp h)) ?_
    rintro ⟨i, hi, -⟩
    rw [List.getElem?_nil] at hi
    cases hi
  | cons a l ih =>
    constructor
    · intro h
      cases h with
      | cons _ h =>
        obtain ⟨i, hi, hm⟩ := ih.mp h
        exact ⟨i + 1, hi, hm⟩
      | cons_cons _ h => exact ⟨0, rfl, h⟩
    · rintro ⟨i, hi, hm⟩
      cases i with
      | zero =>
        obtain rfl := Option.some.inj hi
        exact hm.cons_cons a
      | succ i => exact (ih.mpr ⟨i, hi, hm⟩).cons a

/-- **Three elements from left to right.** -/
theorem triple_sublist_iff : [x, y, z].Sublist l ↔ ∃ i j k : ℕ, i < j ∧ j < k ∧
    l[i]? = some x ∧ l[j]? = some y ∧ l[k]? = some z := by
  simp only [cons_sublist_iff_exists, List.nil_sublist, and_true, List.drop_drop,
    List.getElem?_drop]
  constructor
  · rintro ⟨i, hi, j, hj, k, hk⟩
    exact ⟨i, i + 1 + j, i + 1 + (j + 1) + k, by omega, by omega, hi, hj, hk⟩
  · rintro ⟨i, j, k, hij, hjk, hi, hj, hk⟩
    refine ⟨i, hi, j - (i + 1), ?_, k - (j + 1), ?_⟩
    · rwa [Nat.add_sub_cancel' hij]
    · rwa [show i + 1 + (j - (i + 1) + 1) + (k - (j + 1)) = k by omega]

/-- **Two elements from left to right.** -/
theorem pair_sublist_iff :
    [x, y].Sublist l ↔ ∃ i j : ℕ, i < j ∧ l[i]? = some x ∧ l[j]? = some y := by
  simp only [cons_sublist_iff_exists, List.nil_sublist, and_true, List.getElem?_drop]
  constructor
  · rintro ⟨i, hi, j, hj⟩
    exact ⟨i, i + 1 + j, by omega, hi, hj⟩
  · rintro ⟨i, j, hij, hi, hj⟩
    exact ⟨i, hi, j - (i + 1), by rwa [Nat.add_sub_cancel' hij]⟩

/-- **Two elements in any order** are those at two different positions. -/
theorem pair_subperm_iff :
    [x, y].Subperm l ↔ ∃ i j : ℕ, i ≠ j ∧ l[i]? = some x ∧ l[j]? = some y := by
  constructor
  · rintro ⟨m, hm, hsub⟩
    rcases List.perm_pair.mp hm with rfl | rfl
    · obtain ⟨i, j, hij, hi, hj⟩ := pair_sublist_iff.mp hsub
      exact ⟨i, j, hij.ne, hi, hj⟩
    · obtain ⟨i, j, hij, hi, hj⟩ := pair_sublist_iff.mp hsub
      exact ⟨j, i, hij.ne', hj, hi⟩
  · rintro ⟨i, j, hij, hi, hj⟩
    rcases Nat.lt_or_gt_of_ne hij with hlt | hlt
    · exact (pair_sublist_iff.mpr ⟨i, j, hlt, hi, hj⟩).subperm
    · have hsub := pair_sublist_iff.mpr ⟨j, i, hlt, hj, hi⟩
      exact (List.Perm.swap x y []).subperm_right.mp hsub.subperm

variable [LinearOrder α]

/-- **`k` elements of a list**, in increasing order. -/
def Chosen (k : ℕ) (l t : List α) : Prop := t.length = k ∧ t.Pairwise (· ≤ ·) ∧ t.Subperm l

/-- **They are taken from left to right** where the list has been sorted. -/
theorem chosen_iff_sublist :
    Chosen k l t ↔ t.length = k ∧ t.Sublist (l.insertionSort (· ≤ ·)) := by
  have hsorted := List.pairwise_insertionSort (· ≤ ·) l
  have hperm := List.perm_insertionSort (· ≤ ·) l
  refine and_congr_right fun _ => ⟨fun ⟨hpair, hsub⟩ => ?_, fun h => ⟨hsorted.sublist h, ?_⟩⟩
  · exact List.sublist_of_subperm_of_pairwise (hperm.symm.subperm_left.mp hsub) hpair hsorted
  · exact hperm.subperm_left.mp h.subperm

/-- **They are taken from left to right and sorted.** -/
theorem chosen_iff_sorted :
    Chosen k l t ↔ ∃ m : List α, m.length = k ∧ m.Sublist l ∧ t = m.insertionSort (· ≤ ·) := by
  constructor
  · rintro ⟨hlen, hpair, m, hperm, hsub⟩
    refine ⟨m, hperm.length_eq.trans hlen, hsub, ?_⟩
    have hsort := hperm.symm.trans (List.perm_insertionSort (· ≤ ·) m).symm
    exact hsort.eq_of_pairwise' hpair (List.pairwise_insertionSort (· ≤ ·) m)
  · rintro ⟨m, hlen, hsub, rfl⟩
    exact ⟨(List.length_insertionSort _ m).trans hlen, List.pairwise_insertionSort (· ≤ ·) m,
      (List.perm_insertionSort (· ≤ ·) m).subperm.trans hsub.subperm⟩

end Candcpp
