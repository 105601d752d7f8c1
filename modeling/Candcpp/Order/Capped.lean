import Mathlib.Data.List.Induction
import Mathlib.Data.List.Sort

/-!
# Keeping a number of occurrences

The list that is left if of each value only the first `k` occurrences are kept (`Candcpp.capped`):
a sublist (`Candcpp.capped_sublist`) in which each value occurs as often as before, but not more
than `k` times (`Candcpp.count_capped`).

Whether one more element is kept is a question of how often it has been kept before. In a list that
is in order the last occurrences are at the end, so **it is enough to look at one place**
(`Candcpp.count_lt_iff`).
-/

namespace Candcpp

variable {α : Type} {s l : List α} {x y : α} {k : ℕ}

section Occurrences

variable [DecidableEq α]

/-- The first `k` occurrences of each value. -/
def capped (k : ℕ) (l : List α) : List α :=
  l.foldl (fun s x => if s.count x < k then s ++ [x] else s) []

theorem capped_concat (k : ℕ) (l : List α) (x : α) :
    capped k (l ++ [x]) = if (capped k l).count x < k then capped k l ++ [x] else capped k l := by
  rw [capped, List.foldl_append, ← capped, List.foldl_cons, List.foldl_nil]

/-- What is kept is in the order in which it was. -/
theorem capped_sublist (k : ℕ) (l : List α) : (capped k l).Sublist l := by
  induction l using List.reverseRecOn with
  | nil => exact List.Sublist.refl _
  | append_singleton l x ih =>
    rw [capped_concat]
    split_ifs
    · exact ih.append_right [x]
    · exact ih.trans (List.sublist_append_left l [x])

/-- **How often a value is kept.** -/
theorem count_capped (k : ℕ) (l : List α) (x : α) : (capped k l).count x = min k (l.count x) := by
  induction l using List.reverseRecOn with
  | nil => exact (Nat.min_zero k).symm
  | append_singleton l y ih =>
    rw [capped_concat, List.count_append, List.count_singleton]
    by_cases hyx : y = x
    · subst hyx
      rw [beq_self_eq_true, if_pos rfl, ih]
      split_ifs
      · rw [List.count_append, List.count_singleton_self, ih]
        omega
      · omega
    · have hne : ¬ (y == x) = true := by simpa using hyx
      rw [if_neg hne, Nat.add_zero, ← ih]
      split_ifs
      · rw [List.count_append, List.count_singleton, if_neg hne, Nat.add_zero]
      · rfl

/-- A short list is kept as it is. -/
theorem capped_of_length_le (h : l.length ≤ k) : capped k l = l := by
  induction l using List.reverseRecOn with
  | nil => rfl
  | append_singleton l x ih =>
    rw [List.length_append, List.length_singleton] at h
    have hcount : l.count x ≤ l.length := List.count_le_length
    rw [capped_concat, ih (by omega), if_pos (by omega)]

end Occurrences

/-- **One place tells** whether an element that is not less than those of a list in order has been
kept often enough: it occurs `k` times if it is the one at `k` places before the end. -/
theorem count_lt_iff [LinearOrder α] (hs : s.Pairwise (· ≤ ·)) (hle : ∀ z ∈ s, z ≤ x) {m : ℕ}
    (hm : m + k = s.length) (hy : s[m]? = some y) : s.count x < k ↔ y ≠ x := by
  obtain ⟨hlt, rfl⟩ := List.getElem?_eq_some_iff.mp hy
  have hsplit : s = s.take m ++ s[m] :: s.drop (m + 1) := by
    rw [← List.drop_eq_getElem_cons hlt, List.take_append_drop]
  have hpair := hs
  rw [hsplit, List.pairwise_append, List.pairwise_cons] at hpair
  obtain ⟨-, ⟨hafter, -⟩, hbefore⟩ := hpair
  constructor
  · rintro hcount rfl
    have hall : ∀ z ∈ s.drop m, z = s[m] := by
      intro z hz
      refine le_antisymm (hle z (List.mem_of_mem_drop hz)) ?_
      rw [List.drop_eq_getElem_cons hlt] at hz
      rcases List.mem_cons.mp hz with rfl | hz
      · exact le_rfl
      · exact hafter z hz
    have hdrop : (s.drop m).count s[m] = k := by
      rw [List.eq_replicate_of_mem hall, List.count_replicate_self, List.length_drop]
      omega
    have hsub := (List.drop_sublist m s).count_le s[m]
    omega
  · intro hne
    have hlt' : s[m] < x := lt_of_le_of_ne (hle _ (List.getElem_mem hlt)) hne
    have hzero : (s.take m).count x = 0 := by
      refine List.count_eq_zero_of_not_mem fun hx => ?_
      exact absurd (hbefore x hx s[m] List.mem_cons_self) (not_le.mpr hlt')
    have hrest : (s.drop (m + 1)).count x ≤ (s.drop (m + 1)).length := List.count_le_length
    rw [List.length_drop] at hrest
    rw [hsplit, List.count_append, hzero, List.count_cons_of_ne hne]
    omega

end Candcpp
