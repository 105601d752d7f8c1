import Mathlib.Data.List.Sort

/-!
# Merging two lists

Two lists are merged by a key of their elements; of two elements with equal keys the one of the
second list comes first (`Candcpp.merged`). The result is a permutation of the two lists
(`Candcpp.merged_perm`), and it is sorted if they are (`Candcpp.pairwise_merged`).
-/

namespace Candcpp

variable {α κ : Type} [LinearOrder κ] {key : α → κ} {xs ys : List α} {x y : α}

/-- The two lists merged. -/
def merged (key : α → κ) (xs ys : List α) : List α := ys.merge xs fun a b => key a ≤ key b

@[simp] theorem merged_nil_left (key : α → κ) (ys : List α) : merged key [] ys = ys :=
  List.merge_right ys

@[simp] theorem merged_nil_right (key : α → κ) (xs : List α) : merged key xs [] = xs :=
  List.nil_merge xs

theorem merged_left (h : key x < key y) :
    merged key (x :: xs) (y :: ys) = x :: merged key xs (y :: ys) :=
  List.cons_merge_cons_neg _ _ _ (by simpa using h)

theorem merged_right (h : key y ≤ key x) :
    merged key (x :: xs) (y :: ys) = y :: merged key (x :: xs) ys :=
  List.cons_merge_cons_pos _ _ _ (by simpa using h)

theorem merged_perm (key : α → κ) (xs ys : List α) : (merged key xs ys).Perm (xs ++ ys) :=
  (List.merge_perm_append _).trans List.perm_append_comm

/-- **Two sorted lists are merged to a sorted one.** -/
theorem pairwise_merged (hx : xs.Pairwise (key · ≤ key ·)) (hy : ys.Pairwise (key · ≤ key ·)) :
    (merged key xs ys).Pairwise (key · ≤ key ·) := by
  have hsorted : (merged key xs ys).Pairwise fun a b => decide (key a ≤ key b) = true := by
    refine List.pairwise_merge (fun a b c hab hbc => ?_)
      (fun a b => by simpa using le_total (key a) (key b)) ys xs
      (hy.imp decide_eq_true) (hx.imp decide_eq_true)
    rw [decide_eq_true_iff] at hab hbc ⊢
    exact hab.trans hbc
  exact hsorted.imp of_decide_eq_true

end Candcpp
