import Mathlib

/-!
# Neighbours in a finite set

Two elements of a finite set of a linear order are neighbours if no other one lies between them
(`Candcpp.Neighbours`). An element outside the set but within its range lies between two
neighbours, and inserting and erasing an element changes no other pair than those it is part of:
a new element makes pairs with the neighbours it separates, and where an element is erased the
two next to it become neighbours.
-/

namespace Candcpp

variable {α : Type} [LinearOrder α] {S : Finset α} {a b c p : α}

/-- **Neighbours**: two elements of a set with no other one between. -/
structure Neighbours (S : Finset α) (a b : α) : Prop where
  left_mem : a ∈ S
  right_mem : b ∈ S
  lt : a < b
  between : ∀ x ∈ S, a < x → b ≤ x

namespace Neighbours

/-- The right neighbour is the least element above the left one. -/
theorem iff_min (ha : a ∈ S) : Neighbours S a b ↔ (S.filter (a < ·)).min = b := by
  constructor
  · intro h
    refine le_antisymm (Finset.min_le (Finset.mem_filter.mpr ⟨h.right_mem, h.lt⟩)) ?_
    refine Finset.le_min fun x hx => ?_
    obtain ⟨hx, hax⟩ := Finset.mem_filter.mp hx
    exact WithTop.coe_le_coe.mpr (h.between x hx hax)
  · intro h
    obtain ⟨hb, hab⟩ := Finset.mem_filter.mp (Finset.mem_of_min h)
    refine ⟨ha, hb, hab, fun x hx hax => ?_⟩
    exact Finset.min_le_of_eq (Finset.mem_filter.mpr ⟨hx, hax⟩) h

/-- The left neighbour is the greatest element below the right one. -/
theorem iff_max (hb : b ∈ S) : Neighbours S a b ↔ (S.filter (· < b)).max = a := by
  constructor
  · intro h
    refine le_antisymm (Finset.max_le fun x hx => ?_)
      (Finset.le_max (Finset.mem_filter.mpr ⟨h.left_mem, h.lt⟩))
    obtain ⟨hx, hxb⟩ := Finset.mem_filter.mp hx
    by_contra hax
    exact (h.between x hx (WithBot.coe_lt_coe.mp (not_le.mp hax))).not_gt hxb
  · intro h
    obtain ⟨ha, hab⟩ := Finset.mem_filter.mp (Finset.mem_of_max h)
    refine ⟨ha, hb, hab, fun x hx hax => ?_⟩
    by_contra hbx
    have hmem : x ∈ S.filter (· < b) := Finset.mem_filter.mpr ⟨hx, not_le.mp hbx⟩
    exact (Finset.le_max_of_eq hmem h).not_gt hax

/-- **An element between two of the set** lies between two neighbours, if it is not itself in
the set. -/
theorem exists_around {x y : α} (hx : x ∈ S) (hy : y ∈ S) (hxp : x < p) (hpy : p < y)
    (hp : p ∉ S) : ∃ a b, Neighbours S a b ∧ a < p ∧ p < b := by
  obtain ⟨a, ha⟩ := Finset.max_of_mem (Finset.mem_filter.mpr ⟨hx, hxp⟩ : x ∈ S.filter (· < p))
  obtain ⟨b, hb⟩ := Finset.min_of_mem (Finset.mem_filter.mpr ⟨hy, hpy⟩ : y ∈ S.filter (p < ·))
  obtain ⟨haS, hap⟩ := Finset.mem_filter.mp (Finset.mem_of_max ha)
  obtain ⟨hbS, hpb⟩ := Finset.mem_filter.mp (Finset.mem_of_min hb)
  refine ⟨a, b, ⟨haS, hbS, hap.trans hpb, fun z hz haz => ?_⟩, hap, hpb⟩
  rcases lt_trichotomy z p with hzp | rfl | hpz
  · exact absurd haz (Finset.le_max_of_eq (Finset.mem_filter.mpr ⟨hz, hzp⟩) ha).not_gt
  · exact absurd hz hp
  · exact Finset.min_le_of_eq (Finset.mem_filter.mpr ⟨hz, hpz⟩) hb

/-- An element with another one above has a right neighbour. -/
theorem exists_right (ha : a ∈ S) (hb : b ∈ S) (hab : a < b) : ∃ c, Neighbours S a c := by
  obtain ⟨c, hc⟩ := Finset.min_of_mem (Finset.mem_filter.mpr ⟨hb, hab⟩ : b ∈ S.filter (a < ·))
  exact ⟨c, (iff_min ha).mpr hc⟩

/-- An element with another one below has a left neighbour. -/
theorem exists_left (ha : a ∈ S) (hb : b ∈ S) (hab : a < b) : ∃ c, Neighbours S c b := by
  obtain ⟨c, hc⟩ := Finset.max_of_mem (Finset.mem_filter.mpr ⟨ha, hab⟩ : a ∈ S.filter (· < b))
  exact ⟨c, (iff_max hb).mpr hc⟩

/-- There is only one right neighbour. -/
theorem right_unique (h : Neighbours S a b) (h' : Neighbours S a c) : b = c :=
  le_antisymm (h.between c h'.right_mem h'.lt) (h'.between b h.right_mem h.lt)

/-- There is only one left neighbour. -/
theorem left_unique (h : Neighbours S a c) (h' : Neighbours S b c) : a = b := by
  refine le_antisymm ?_ ?_
  · by_contra hba
    exact (h'.between a h.left_mem (not_le.mp hba)).not_gt h.lt
  · by_contra hab
    exact (h.between b h'.left_mem (not_le.mp hab)).not_gt h'.lt

/-- **A new element** makes pairs with elements next to it; the others are old ones. -/
theorem of_insert (h : Neighbours (insert p S) a b) :
    Neighbours S a b ∨ (a ∈ S ∧ b = p ∧ ∀ x ∈ S, a < x → p ≤ x) ∨
      (a = p ∧ b ∈ S ∧ p < b ∧ ∀ x ∈ S, p < x → b ≤ x) := by
  have hbetween : ∀ x ∈ S, a < x → b ≤ x := fun x hx => h.between x (Finset.mem_insert_of_mem hx)
  rcases Finset.mem_insert.mp h.left_mem with rfl | ha
  · rcases Finset.mem_insert.mp h.right_mem with rfl | hb
    · exact absurd h.lt (lt_irrefl _)
    · exact Or.inr (Or.inr ⟨rfl, hb, h.lt, hbetween⟩)
  · rcases Finset.mem_insert.mp h.right_mem with rfl | hb
    · exact Or.inr (Or.inl ⟨ha, rfl, hbetween⟩)
    · exact Or.inl ⟨ha, hb, h.lt, hbetween⟩

/-- **Where an element is erased**, the two next to it become neighbours; the others were
neighbours before. -/
theorem of_erase (h : Neighbours (S.erase p) a b) :
    Neighbours S a b ∨ (Neighbours S a p ∧ Neighbours S p b) := by
  have ha := (Finset.mem_erase.mp h.left_mem)
  have hb := (Finset.mem_erase.mp h.right_mem)
  have hbetween : ∀ x ∈ S, x ≠ p → a < x → b ≤ x := fun x hx hxp =>
    h.between x (Finset.mem_erase.mpr ⟨hxp, hx⟩)
  by_cases hp : p ∈ S ∧ a < p ∧ p < b
  · obtain ⟨hpS, hap, hpb⟩ := hp
    refine Or.inr ⟨⟨ha.2, hpS, hap, fun x hx hax => ?_⟩, ⟨hpS, hb.2, hpb, fun x hx hpx => ?_⟩⟩
    · rcases eq_or_ne x p with rfl | hxp
      · exact le_rfl
      · exact hpb.le.trans (hbetween x hx hxp hax)
    · exact hbetween x hx hpx.ne' (hap.trans hpx)
  · refine Or.inl ⟨ha.2, hb.2, h.lt, fun x hx hax => ?_⟩
    rcases eq_or_ne x p with rfl | hxp
    · by_contra hbx
      exact hp ⟨hx, hax, not_le.mp hbx⟩
    · exact hbetween x hx hxp hax

end Neighbours

end Candcpp
