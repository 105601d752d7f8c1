import Mathlib

/-!
# Changing signs in pairs

Integers at the vertices of a finite graph, of which two that are adjacent may be multiplied by -1:
`Candcpp.Flip`. How great can their sum be made (`Candcpp.sums`)?

The absolute values stay as they are, and so does the product of all integers. Where the graph is
connected, any two of them can be multiplied by -1, along a path between them
(`Candcpp.flips_pair`), so that at most one stays negative, and this can be any of them. **If an
even number of integers is negative, the sum of the absolute values is reached**
(`Candcpp.isGreatest_sums_even`). **If an odd number is, the least absolute value is taken off
twice** (`Candcpp.isGreatest_sums_odd`): if no integer is zero then the product is negative, and one
of them always is.
-/

namespace Candcpp

variable {V : Type} [DecidableEq V] {G : SimpleGraph V}

/-- The integers after the one at `v` has been multiplied by -1. -/
def negAt (a : V → ℤ) (v : V) : V → ℤ := Function.update a v (-a v)

/-- **Two adjacent integers** are multiplied by -1. -/
inductive Flip (G : SimpleGraph V) : (V → ℤ) → (V → ℤ) → Prop
  | mk (a : V → ℤ) {u v : V} (h : G.Adj u v) : Flip G a (negAt (negAt a u) v)

/-- What can be reached by any number of such steps. -/
abbrev Flips (G : SimpleGraph V) : (V → ℤ) → (V → ℤ) → Prop := Relation.ReflTransGen (Flip G)

variable {a b : V → ℤ} {u v w : V}

/-! ### Two integers -/

theorem negAt_self (a : V → ℤ) (v : V) : negAt a v v = -a v := Function.update_self _ _ _

theorem negAt_of_ne (a : V → ℤ) (h : w ≠ v) : negAt a v w = a w := Function.update_of_ne h _ _

/-- An integer that is multiplied by -1 twice is as before. -/
theorem negAt_negAt (a : V → ℤ) (v : V) : negAt (negAt a v) v = a := by
  rw [negAt, negAt_self, neg_neg, negAt, Function.update_idem, Function.update_eq_self]

/-- **Any two integers** can be multiplied by -1. -/
theorem flips_pair (h : G.Reachable u v) (a : V → ℤ) : Flips G a (negAt (negAt a u) v) := by
  obtain ⟨p⟩ := h
  induction p generalizing a with
  | nil => rw [negAt_negAt]
  | @cons u x v hadj p ih =>
    have hrest := ih (negAt (negAt a u) x)
    rw [negAt_negAt] at hrest
    exact .head (.mk a hadj) hrest

theorem abs_negAt (a : V → ℤ) (v w : V) : |negAt a v w| = |a w| := by
  by_cases h : w = v
  · rw [h, negAt_self, abs_neg]
  · rw [negAt_of_ne a h]

/-- **The absolute values** stay as they are. -/
theorem Flips.abs_eq (h : Flips G a b) (v : V) : |b v| = |a v| := by
  induction h with
  | refl => rfl
  | tail _ hflip ih =>
    cases hflip with
    | mk _ => rw [abs_negAt, abs_negAt, ih]

variable [Fintype V]

/-- The sums that can be reached. -/
def sums (G : SimpleGraph V) (a : V → ℤ) : Set ℤ := {x | ∃ b, Flips G a b ∧ ∑ v, b v = x}

/-- Where the integers are negative. -/
def negatives (a : V → ℤ) : Finset V := Finset.univ.filter fun v => a v < 0

omit [DecidableEq V] in
theorem mem_negatives : v ∈ negatives a ↔ a v < 0 := by
  rw [negatives, Finset.mem_filter, and_iff_right (Finset.mem_univ v)]

theorem prod_negAt (a : V → ℤ) (v : V) : ∏ w, negAt a v w = -∏ w, a w := by
  rw [negAt, Finset.prod_update_of_mem (Finset.mem_univ v), neg_mul,
    ← Finset.mul_prod_erase _ a (Finset.mem_univ v), Finset.sdiff_singleton_eq_erase]

/-- **The product** stays as it is. -/
theorem Flips.prod_eq (h : Flips G a b) : ∏ v, b v = ∏ v, a v := by
  induction h with
  | refl => rfl
  | tail _ hflip ih =>
    cases hflip with
    | mk _ => rw [prod_negAt, prod_negAt, neg_neg, ih]

/-- The sign of the product. -/
theorem prod_eq_sign (a : V → ℤ) : ∏ v, a v = (-1) ^ (negatives a).card * ∏ v, |a v| := by
  have hsign : ∀ v, a v = (if v ∈ negatives a then -1 else 1) * |a v| := by
    intro v
    by_cases h : v ∈ negatives a
    · rw [if_pos h, abs_of_neg (mem_negatives.mp h), neg_one_mul, neg_neg]
    · rw [if_neg h, abs_of_nonneg (not_lt.mp (mt mem_negatives.mpr h)), one_mul]
  calc ∏ v, a v = ∏ v, (if v ∈ negatives a then -1 else 1) * |a v| :=
        Finset.prod_congr rfl fun v _ => hsign v
    _ = (-1) ^ (negatives a).card * ∏ v, |a v| := by
        rw [Finset.prod_mul_distrib, Finset.prod_ite_mem, Finset.univ_inter, Finset.prod_const]

/-! ### The upper bound -/

theorem sum_le_sum_abs (h : Flips G a b) : ∑ v, b v ≤ ∑ v, |a v| :=
  Finset.sum_le_sum fun v _ => (le_abs_self (b v)).trans_eq (h.abs_eq v)

/-- **One integer that is not positive** takes its absolute value off twice. -/
theorem sum_le_of_nonpos (h : Flips G a b) (hv : b v ≤ 0) :
    ∑ v, b v ≤ ∑ v, |a v| - 2 * |a v| := by
  have hle : ∑ w ∈ Finset.univ.erase v, b w ≤ ∑ w ∈ Finset.univ.erase v, |a w| :=
    Finset.sum_le_sum fun w _ => (le_abs_self (b w)).trans_eq (h.abs_eq w)
  have habs : |a v| = -b v := by rw [← h.abs_eq v, abs_of_nonpos hv]
  rw [← Finset.add_sum_erase _ b (Finset.mem_univ v),
    ← Finset.add_sum_erase _ (fun v => |a v|) (Finset.mem_univ v), habs]
  linarith

/-- **If an odd number of integers is negative** then one of them never is positive. -/
theorem exists_nonpos (h : Flips G a b) (hodd : Odd (negatives a).card) : ∃ v, b v ≤ 0 := by
  by_contra hall
  simp only [not_exists, not_le] at hall
  have hpos : 0 < ∏ v, b v := Finset.prod_pos fun v _ => hall v
  rw [h.prod_eq, prod_eq_sign, hodd.neg_one_pow, neg_one_mul] at hpos
  have hnonneg : 0 ≤ ∏ v, |a v| := Finset.prod_nonneg fun v _ => abs_nonneg (a v)
  linarith

/-! ### The sums that are reached -/

/-- **Two negative integers** are made positive. -/
theorem negatives_pair (huv : u ≠ v) (hu : a u < 0) (hv : a v < 0) :
    negatives (negAt (negAt a u) v) = ((negatives a).erase u).erase v := by
  ext w
  rw [Finset.mem_erase, Finset.mem_erase, mem_negatives, mem_negatives]
  by_cases hwv : w = v
  · rw [hwv, negAt_self, negAt_of_ne a huv.symm]
    exact iff_of_false (by omega) fun h => h.1 rfl
  · rw [negAt_of_ne _ hwv]
    by_cases hwu : w = u
    · rw [hwu, negAt_self]
      exact iff_of_false (by omega) fun h => h.2.1 rfl
    · rw [negAt_of_ne a hwu, and_iff_right hwv, and_iff_right hwu]

/-- **At most one integer stays negative.** -/
theorem exists_flips_card (hG : G.Preconnected) (a : V → ℤ) :
    ∃ b, Flips G a b ∧ (negatives b).card = (negatives a).card % 2 := by
  induction hcard : (negatives a).card using Nat.strong_induction_on generalizing a with
  | _ k ih =>
    rcases Nat.lt_or_ge k 2 with hlt | hge
    · exact ⟨a, .refl, by rw [hcard, Nat.mod_eq_of_lt hlt]⟩
    · obtain ⟨u, hu, v, hv, huv⟩ := Finset.one_lt_card.mp (hcard.symm ▸ hge)
      have hless : (negatives (negAt (negAt a u) v)).card = k - 2 := by
        rw [negatives_pair huv (mem_negatives.mp hu) (mem_negatives.mp hv),
          Finset.card_erase_of_mem (Finset.mem_erase.mpr ⟨huv.symm, hv⟩),
          Finset.card_erase_of_mem hu, hcard]
        omega
      obtain ⟨b, hb, hbcard⟩ := ih (k - 2) (by omega) _ hless
      exact ⟨b, (flips_pair (hG u v) a).trans hb, by rw [hbcard]; omega⟩

/-- **The greatest sum** is that of the absolute values, if an even number of integers is negative.
-/
theorem isGreatest_sums_even (hG : G.Preconnected) (heven : Even (negatives a).card) :
    IsGreatest (sums G a) (∑ v, |a v|) := by
  refine ⟨?_, fun x ⟨b, hb, hx⟩ => hx ▸ sum_le_sum_abs hb⟩
  obtain ⟨b, hb, hcard⟩ := exists_flips_card hG a
  rw [Nat.even_iff.mp heven, Finset.card_eq_zero] at hcard
  refine ⟨b, hb, Finset.sum_congr rfl fun v _ => ?_⟩
  have hnonneg : ¬ b v < 0 := fun h => by
    rw [← mem_negatives, hcard] at h
    exact absurd h (Finset.notMem_empty v)
  rw [← hb.abs_eq v, abs_of_nonneg (not_lt.mp hnonneg)]

/-- **The one negative integer** can be any of them. -/
theorem exists_flips_at (hG : G.Preconnected) (hodd : Odd (negatives a).card) (w : V) :
    ∃ b, Flips G a b ∧ ∀ v, b v = if v = w then -|a v| else |a v| := by
  obtain ⟨b, hb, hcard⟩ := exists_flips_card hG a
  rw [Nat.odd_iff.mp hodd, Finset.card_eq_one] at hcard
  obtain ⟨u, hu⟩ := hcard
  have hneg : ∀ v, b v < 0 ↔ v = u := fun v => by
    rw [← mem_negatives, hu, Finset.mem_singleton]
  have hval : ∀ v, b v = if v = u then -|a v| else |a v| := by
    intro v
    rw [← hb.abs_eq v]
    split_ifs with h
    · rw [abs_of_neg ((hneg v).mpr h), neg_neg]
    · rw [abs_of_nonneg (not_lt.mp (mt (hneg v).mp h))]
  by_cases huw : u = w
  · exact ⟨b, hb, huw ▸ hval⟩
  · refine ⟨_, hb.trans (flips_pair (hG u w) b), fun v => ?_⟩
    by_cases hvw : v = w
    · rw [hvw, negAt_self, negAt_of_ne b (Ne.symm huw), hval, if_neg (Ne.symm huw), if_pos rfl]
    · rw [negAt_of_ne _ hvw, if_neg hvw]
      by_cases hvu : v = u
      · rw [hvu, negAt_self, hval, if_pos rfl, neg_neg]
      · rw [negAt_of_ne b hvu, hval, if_neg hvu]

/-- **The greatest sum** is less by two times the least absolute value, if an odd number of integers
is negative. -/
theorem isGreatest_sums_odd (hG : G.Preconnected) (hodd : Odd (negatives a).card)
    (hw : ∀ v, |a w| ≤ |a v|) : IsGreatest (sums G a) (∑ v, |a v| - 2 * |a w|) := by
  constructor
  · obtain ⟨b, hb, hval⟩ := exists_flips_at hG hodd w
    refine ⟨b, hb, ?_⟩
    have hrest : ∑ v ∈ Finset.univ.erase w, b v = ∑ v ∈ Finset.univ.erase w, |a v| :=
      Finset.sum_congr rfl fun v hv => by rw [hval, if_neg (Finset.ne_of_mem_erase hv)]
    rw [← Finset.add_sum_erase _ b (Finset.mem_univ w),
      ← Finset.add_sum_erase _ (fun v => |a v|) (Finset.mem_univ w), hrest, hval, if_pos rfl]
    ring
  · rintro x ⟨b, hb, rfl⟩
    obtain ⟨v, hv⟩ := exists_nonpos hb hodd
    have hle := sum_le_of_nonpos hb hv
    have hwv := hw v
    linarith

end Candcpp
