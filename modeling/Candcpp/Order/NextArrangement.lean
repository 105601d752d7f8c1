import Mathlib.Data.List.Lex
import Mathlib.Data.List.Sort
import Mathlib.Order.Bounds.Basic

/-!
# The next arrangement

The arrangements of the elements of a list, in lexicographic order. The list in increasing order is
the least one (`Candcpp.le_of_perm`), the list in decreasing order the greatest one
(`Candcpp.ge_of_perm`).

The next arrangement of a list has the same elements in front as long as possible, that is, until
the rest is in decreasing order. There the next greater element comes first, and the others in
increasing order (`Candcpp.isLeast_next`, `Candcpp.isLeast_next_append`).
-/

namespace Candcpp

variable {α : Type} [LinearOrder α] {a b : α} {l p s t : List α}

theorem cons_le_cons_iff : a :: s ≤ b :: t ↔ a < b ∨ a = b ∧ s ≤ t := by
  rw [le_iff_lt_or_eq, List.cons_lt_cons_iff, le_iff_lt_or_eq, List.cons.injEq]
  tauto

omit [LinearOrder α] in
/-- The first element of an arrangement is the same, or it is one of the others. -/
theorem cons_perm_cons (h : (b :: t).Perm (a :: s)) : (b = a ∧ t.Perm s) ∨ b ∈ s := by
  rcases List.mem_cons.mp (h.subset List.mem_cons_self) with rfl | hb
  · exact .inl ⟨rfl, h.cons_inv⟩
  · exact .inr hb

/-- **The least arrangement** is the one in increasing order. -/
theorem le_of_perm (hs : s.Pairwise (· ≤ ·)) (ht : t.Perm s) : s ≤ t := by
  induction s generalizing t with
  | nil => rw [ht.eq_nil]
  | cons a s ih =>
    cases t with
    | nil => exact absurd ht.symm.eq_nil (List.cons_ne_nil a s)
    | cons b t =>
      rw [cons_le_cons_iff]
      rcases cons_perm_cons ht with ⟨rfl, hts⟩ | hb
      · exact .inr ⟨rfl, ih hs.of_cons hts⟩
      · rcases lt_or_eq_of_le ((List.pairwise_cons.mp hs).1 b hb) with hlt | rfl
        · exact .inl hlt
        · exact .inr ⟨rfl, ih hs.of_cons ht.cons_inv⟩

/-- **The greatest arrangement** is the one in decreasing order. -/
theorem ge_of_perm (hs : s.Pairwise (· ≥ ·)) (ht : t.Perm s) : t ≤ s := by
  induction s generalizing t with
  | nil => rw [ht.eq_nil]
  | cons a s ih =>
    cases t with
    | nil => exact absurd ht.symm.eq_nil (List.cons_ne_nil a s)
    | cons b t =>
      rw [cons_le_cons_iff]
      rcases cons_perm_cons ht with ⟨rfl, hts⟩ | hb
      · exact .inr ⟨rfl, ih hs.of_cons hts⟩
      · rcases lt_or_eq_of_le ((List.pairwise_cons.mp hs).1 b hb) with hlt | rfl
        · exact .inl hlt
        · exact .inr ⟨rfl, ih hs.of_cons ht.cons_inv⟩

/-- The arrangements of a list that are greater. -/
def greater (s : List α) : Set (List α) := {l | l.Perm s ∧ s < l}

/-- **The next arrangement**, where the elements behind the first one are in decreasing order: the
least element that is greater than the first one comes first, and the others are in increasing
order. -/
theorem isLeast_next (hs : s.Pairwise (· ≥ ·)) (hab : a < b) (hb : ∀ c ∈ s, a < c → b ≤ c)
    (ht : t.Pairwise (· ≤ ·)) (hperm : (b :: t).Perm (a :: s)) :
    IsLeast (greater (a :: s)) (b :: t) := by
  refine ⟨⟨hperm, List.cons_lt_cons_iff.mpr (.inl hab)⟩, ?_⟩
  rintro l ⟨hl, hlt⟩
  cases l with
  | nil => exact absurd hl.symm.eq_nil (List.cons_ne_nil a s)
  | cons c l =>
    rw [cons_le_cons_iff]
    rcases List.cons_lt_cons_iff.mp hlt with hac | ⟨rfl, hsl⟩
    · have hc : c ∈ s := (cons_perm_cons hl).resolve_left fun h => hac.ne' h.1
      rcases lt_or_eq_of_le (hb c hc hac) with hbc | rfl
      · exact .inl hbc
      · exact .inr ⟨rfl, le_of_perm ht (hl.trans hperm.symm).cons_inv⟩
    · -- with the same first element no arrangement is greater
      exact absurd hsl (not_lt.mpr (ge_of_perm hs hl.cons_inv))

/-- **The elements in front stay** where they are. -/
theorem isLeast_next_append (p : List α) (h : IsLeast (greater s) t) :
    IsLeast (greater (p ++ s)) (p ++ t) := by
  induction p with
  | nil => exact h
  | cons x p ih =>
    obtain ⟨⟨hperm, hlt⟩, hmin⟩ := ih
    refine ⟨⟨hperm.cons x, List.cons_lt_cons_iff.mpr (.inr ⟨rfl, hlt⟩)⟩, ?_⟩
    rintro l ⟨hl, hxl⟩
    cases l with
    | nil => exact absurd hl.symm.eq_nil (List.cons_ne_nil x _)
    | cons y l =>
      rw [List.cons_append, cons_le_cons_iff]
      rcases List.cons_lt_cons_iff.mp hxl with hlt | ⟨rfl, hlt⟩
      · exact .inl hlt
      · exact .inr ⟨rfl, hmin ⟨hl.cons_inv, hlt⟩⟩

end Candcpp
