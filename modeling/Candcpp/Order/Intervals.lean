import Mathlib

/-!
# Half-open intervals

An interval is a pair of its ends, of which the second one does not belong to it. Two intervals
overlap (`Candcpp.Overlap`) if each begins before the other one ends; for intervals that are not
empty this means that they have an element in common (`Candcpp.disjoint_Ico_iff`).

Intervals that are not empty and do not overlap (`Candcpp.Separate`) can be put in order, and then
each ends before the next one begins (`Candcpp.InOrder`). Whether a further interval overlaps one of
them is then **a question of its two neighbours**: of the last one that begins before it, and of the
first one that does not (`Candcpp.InOrder.exists_overlap_skip`,
`Candcpp.InOrder.exists_overlap_first`).
-/

namespace Candcpp

variable {α : Type} [LinearOrder α] {p q x : α × α} {l l' : List (α × α)} {s e : α}

/-- **Two intervals overlap.** -/
def Overlap (p q : α × α) : Prop := p.1 < q.2 ∧ q.1 < p.2

instance (p q : α × α) : Decidable (Overlap p q) := inferInstanceAs (Decidable (_ ∧ _))

theorem Overlap.symm (h : Overlap p q) : Overlap q p := And.symm h

/-- Intervals that are not empty are disjoint exactly if they do not overlap. -/
theorem disjoint_Ico_iff (hp : p.1 < p.2) (hq : q.1 < q.2) :
    Disjoint (Set.Ico p.1 p.2) (Set.Ico q.1 q.2) ↔ ¬ Overlap p q := by
  rw [Set.Ico_disjoint_Ico, min_le_iff, le_max_iff, le_max_iff, Overlap, not_and_or, not_lt, not_lt]
  constructor
  · rintro ((h | h) | h | h)
    · exact absurd h hp.not_ge
    · exact .inr h
    · exact .inl h
    · exact absurd h hq.not_ge
  · rintro (h | h)
    · exact .inr (.inl h)
    · exact .inl (.inr h)

/-- **Intervals that are not empty and do not overlap.** -/
structure Separate (l : List (α × α)) : Prop where
  proper : ∀ p ∈ l, p.1 < p.2
  apart : l.Pairwise fun p q => ¬ Overlap p q

/-- **Intervals one after the other.** -/
structure InOrder (l : List (α × α)) : Prop where
  proper : ∀ p ∈ l, p.1 < p.2
  apart : l.Pairwise fun p q => p.2 ≤ q.1

theorem separate_nil : Separate ([] : List (α × α)) where
  proper := fun _ hp => absurd hp List.not_mem_nil
  apart := .nil

/-- One more interval that overlaps none of them. -/
theorem Separate.concat (h : Separate l) (hx : x.1 < x.2) (hfree : ∀ p ∈ l, ¬ Overlap p x) :
    Separate (l ++ [x]) where
  proper := List.forall_mem_append.mpr ⟨h.proper, List.forall_mem_singleton.mpr hx⟩
  apart := by
    refine List.pairwise_append.mpr ⟨h.apart, List.pairwise_singleton _ _, fun p hp q hq => ?_⟩
    rw [List.mem_singleton.mp hq]
    exact hfree p hp

/-- **The intervals are put in order.** -/
theorem Separate.inOrder (h : Separate l) (hperm : l'.Perm l)
    (hsorted : l'.Pairwise fun p q => toLex p ≤ toLex q) : InOrder l' where
  proper := fun p hp => h.proper p (hperm.mem_iff.mp hp)
  apart := by
    have hapart : l'.Pairwise fun p q => ¬ Overlap p q :=
      (hperm.pairwise_iff fun hpq hqp => hpq hqp.symm).mpr h.apart
    refine (hsorted.and hapart).imp_of_mem fun {p q} hp hq hpq => ?_
    have hle : p.1 ≤ q.1 := by
      rcases Prod.Lex.le_iff.mp hpq.1 with hlt | ⟨heq, -⟩
      · exact hlt.le
      · exact heq.le
    rw [Overlap, not_and_or, not_lt, not_lt] at hpq
    rcases hpq.2 with hbefore | hbehind
    · exact absurd hbefore ((hle.trans_lt (h.proper q (hperm.mem_iff.mp hq))).not_ge)
    · exact hbehind

theorem InOrder.tail (h : InOrder (p :: l)) : InOrder l where
  proper := fun q hq => h.proper q (List.mem_cons_of_mem _ hq)
  apart := h.apart.of_cons

/-- **The first interval that does not begin before** is the only one of the rest that matters. -/
theorem InOrder.exists_overlap_first (h : InOrder (p :: l)) (hs : s ≤ p.1) :
    (∃ x ∈ p :: l, Overlap x (s, e)) ↔ p.1 < e := by
  constructor
  · rintro ⟨x, hx, hover⟩
    rcases List.mem_cons.mp hx with rfl | hx
    · exact hover.1
    · have hpx := List.rel_of_pairwise_cons h.apart hx
      exact ((h.proper p List.mem_cons_self).trans_le hpx).trans hover.1
  · exact fun he => ⟨p, List.mem_cons_self, he, hs.trans_lt (h.proper p List.mem_cons_self)⟩

/-- **Only the last interval that begins before** can reach that far. -/
theorem InOrder.exists_overlap_skip (h : InOrder (p :: q :: l)) (hs : q.1 < s) :
    (∃ x ∈ p :: q :: l, Overlap x (s, e)) ↔ ∃ x ∈ q :: l, Overlap x (s, e) := by
  rw [List.exists_mem_cons_iff]
  refine or_iff_right fun hover => ?_
  have hpq : p.2 ≤ q.1 := List.rel_of_pairwise_cons h.apart List.mem_cons_self
  exact hover.2.not_ge (hpq.trans hs.le)

end Candcpp
