import Mathlib.Data.List.Basic
import Mathlib.Order.Bounds.Basic
import Mathlib.Tactic.Push

/-!
# The next greater element

In a sequence, how far it is from a position to the first greater element behind it
(`Candcpp.Wait`). Of the first elements of the sequence, some have not met a greater one so far
(`Candcpp.Unmet`); a stack that holds their positions, the last one on top, is a `Candcpp.Waiting`.

The next element is the first greater one of those positions whose elements are less than it, and
these are on top of the stack: while they are removed the stack is a `Candcpp.Popping`, and each
one that is removed has met its next greater element (`Candcpp.Popping.wait`). When one is reached
that is not less, the stack with the new position on top is again one of the positions that are
waiting (`Candcpp.Popping.push`).

What is known of the distances goes with it (`Candcpp.Known`): **after the removal the distances are
those that the next element makes of them** (`Candcpp.Known.push`).
-/

namespace Candcpp

variable {α : Type} [LinearOrder α] {h : ℕ → α} {i j k m n t : ℕ} {s : List ℕ} {a b : ℤ}

/-! ### How far it is -/

/-- None of the elements behind the position `k` and before `i` is greater. -/
def Unmet (h : ℕ → α) (i k : ℕ) : Prop := ∀ j, k < j → j < i → h j ≤ h k

/-- **How far it is** from the position `k` to the first greater one of the elements before `n`, or
`0` if there is none. -/
def Wait (h : ℕ → α) (n k : ℕ) (a : ℤ) : Prop :=
  (∃ j, IsLeast {j | k < j ∧ j < n ∧ h k < h j} j ∧ a = (j : ℤ) - k) ∨ (Unmet h n k ∧ a = 0)

theorem Unmet.mono (hu : Unmet h n k) (hmn : m ≤ n) : Unmet h m k :=
  fun j hj hjm => hu j hj (hjm.trans_le hmn)

/-- **The next element** is greater, or not. -/
theorem unmet_succ : Unmet h (i + 1) k ↔ Unmet h i k ∧ (k < i → h i ≤ h k) := by
  constructor
  · intro hu
    exact ⟨hu.mono (Nat.le_succ i), fun hk => hu i hk (Nat.lt_succ_self i)⟩
  · rintro ⟨hu, hi⟩ j hj hji
    rcases Nat.lt_succ_iff_lt_or_eq.mp hji with hlt | rfl
    · exact hu j hj hlt
    · exact hi hj

/-- The first greater element is one that comes after others that are not. -/
theorem isLeast_iff : IsLeast {j | k < j ∧ j < n ∧ h k < h j} j ↔
    (k < j ∧ j < n ∧ h k < h j) ∧ Unmet h j k := by
  refine and_congr_right fun hj => ⟨fun hle m hm hmj => ?_, fun hu m hm => ?_⟩
  · by_contra hlt
    have hjm : j ≤ m := hle ⟨hm, hmj.trans hj.2.1, not_le.mp hlt⟩
    omega
  · by_contra hlt
    exact (hu m hm.1 (not_le.mp hlt)).not_gt hm.2.2

/-- It is one distance only. -/
theorem Wait.unique (ha : Wait h n k a) (hb : Wait h n k b) : a = b := by
  have hnot : ∀ j, IsLeast {j | k < j ∧ j < n ∧ h k < h j} j → ¬ Unmet h n k := by
    intro j hj hu
    exact (hu j hj.1.1 hj.1.2.1).not_gt hj.1.2.2
  rcases ha with ⟨i, hi, rfl⟩ | ⟨hu, rfl⟩ <;> rcases hb with ⟨j, hj, rfl⟩ | ⟨hv, rfl⟩
  · rw [hi.unique hj]
  · exact absurd hv (hnot i hi)
  · exact absurd hu (hnot j hj)
  · rfl

/-- It has been found, and stays so. -/
theorem wait_of_lt (hkj : k < j) (hjn : j < n) (hlt : h k < h j) (hu : Unmet h j k) :
    Wait h n k ((j : ℤ) - k) := .inl ⟨j, isLeast_iff.mpr ⟨⟨hkj, hjn, hlt⟩, hu⟩, rfl⟩

theorem Wait.mono (hw : Wait h m k a) (hmn : m ≤ n) (hmet : ¬ Unmet h m k) : Wait h n k a := by
  rcases hw with ⟨j, hj, rfl⟩ | ⟨hu, -⟩
  · obtain ⟨⟨hkj, hjm, hlt⟩, hu⟩ := isLeast_iff.mp hj
    exact wait_of_lt hkj (hjm.trans_le hmn) hlt hu
  · exact absurd hu hmet

/-- It is as if there were none until it is found. -/
theorem Wait.eq_zero (hw : Wait h n k a) (hu : Unmet h n k) : a = 0 :=
  hw.unique (.inr ⟨hu, rfl⟩)

/-! ### The stack -/

/-- **The positions that are waiting**: a stack of those among the first `i` that have met no
greater element so far, the last one on top. -/
structure Waiting (h : ℕ → α) (i : ℕ) (s : List ℕ) : Prop where
  pairwise : s.Pairwise (· > ·)
  mem : ∀ k, k ∈ s ↔ k < i ∧ Unmet h i k

/-- **The removal for the next element**: those that have been removed are the ones that are less
than it. -/
structure Popping (h : ℕ → α) (i : ℕ) (s : List ℕ) : Prop where
  pairwise : s.Pairwise (· > ·)
  waiting : ∀ k ∈ s, k < i ∧ Unmet h i k
  less : ∀ k < i, Unmet h i k → k ∉ s → h k < h i

theorem waiting_zero (h : ℕ → α) : Waiting h 0 [] where
  pairwise := .nil
  mem := fun k => iff_of_false List.not_mem_nil fun hk => Nat.not_lt_zero k hk.1

theorem Waiting.popping (hs : Waiting h i s) : Popping h i s where
  pairwise := hs.pairwise
  waiting := fun k hk => (hs.mem k).mp hk
  less := fun k hk hu hnot => absurd ((hs.mem k).mpr ⟨hk, hu⟩) hnot

namespace Popping

/-- One that is less is removed. -/
theorem pop (hs : Popping h i (t :: s)) (hlt : h t < h i) : Popping h i s where
  pairwise := hs.pairwise.of_cons
  waiting := fun k hk => hs.waiting k (List.mem_cons_of_mem t hk)
  less := fun k hk hu hnot => by
    rcases eq_or_ne k t with rfl | hne
    · exact hlt
    · exact hs.less k hk hu (List.not_mem_cons_of_ne_of_not_mem hne hnot)

/-- **What is removed has met its next greater element.** -/
theorem wait (hs : Popping h i (t :: s)) (hlt : h t < h i) (hin : i < n) :
    Wait h n t ((i : ℤ) - t) := by
  obtain ⟨hti, hu⟩ := hs.waiting t List.mem_cons_self
  exact wait_of_lt hti hin hlt hu

/-- **The new position** comes on top of one that is not less. -/
theorem push (hs : Popping h i s) (htop : ∀ t ∈ s.head?, h i ≤ h t) :
    Waiting h (i + 1) (i :: s) where
  pairwise := List.pairwise_cons.mpr ⟨fun k hk => (hs.waiting k hk).1, hs.pairwise⟩
  mem := by
    -- what lies below the top is not less than it
    have hle : ∀ k ∈ s, h i ≤ h k := by
      intro k hk
      cases s with
      | nil => exact absurd hk List.not_mem_nil
      | cons t s =>
        have hti : h i ≤ h t := htop t rfl
        rcases List.mem_cons.mp hk with rfl | hk'
        · exact hti
        · have hkt : k < t := (List.pairwise_cons.mp hs.pairwise).1 k hk'
          exact hti.trans ((hs.waiting k hk).2 t hkt (hs.waiting t List.mem_cons_self).1)
    intro k
    rw [List.mem_cons, unmet_succ]
    constructor
    · rintro (rfl | hk)
      · exact ⟨Nat.lt_succ_self k, fun j hkj hjk => by omega, fun hkk => by omega⟩
      · obtain ⟨hki, hu⟩ := hs.waiting k hk
        exact ⟨by omega, hu, fun _ => hle k hk⟩
    · rintro ⟨hki, hu, hi⟩
      rcases Nat.lt_succ_iff_lt_or_eq.mp hki with hlt | rfl
      · refine .inr ?_
        by_contra hnot
        exact (hs.less k hlt hu hnot).not_ge (hi hlt)
      · exact .inl rfl

end Popping

/-! ### The distances -/

variable {d : ℕ → ℤ}

/-- **What is known of the distances** during the removal for the next element: this element counts
for those positions that are not on the stack. -/
def Known (h : ℕ → α) (i : ℕ) (s : List ℕ) (d : ℕ → ℤ) : Prop :=
  ∀ k, (k ∈ s → Wait h i k (d k)) ∧ (k ∉ s → Wait h (i + 1) k (d k))

theorem Waiting.known (hs : Waiting h i s) (hd : ∀ k, Wait h i k (d k)) : Known h i s d := by
  refine fun k => ⟨fun _ => hd k, fun hnot => ?_⟩
  by_cases hu : Unmet h i k
  · -- the position of the element, or one behind it
    have hik : ¬ k < i := fun hk => hnot ((hs.mem k).mpr ⟨hk, hu⟩)
    exact .inr ⟨unmet_succ.mpr ⟨hu, fun hk => absurd hk hik⟩, (hd k).eq_zero hu⟩
  · exact (hd k).mono (Nat.le_succ i) hu

/-- The distance of what is removed becomes known. -/
theorem Known.pop (hd : Known h i (t :: s) d) (hs : Popping h i (t :: s)) (hlt : h t < h i) :
    Known h i s (Function.update d t ((i : ℤ) - t)) := by
  intro k
  rcases eq_or_ne k t with rfl | hne
  · have hnot : k ∉ s := fun hk => (lt_irrefl k) ((List.pairwise_cons.mp hs.pairwise).1 k hk)
    rw [Function.update_self]
    exact ⟨fun hk => absurd hk hnot, fun _ => hs.wait hlt (Nat.lt_succ_self i)⟩
  · rw [Function.update_of_ne hne]
    refine ⟨fun hk => (hd k).1 (List.mem_cons_of_mem t hk), fun hk => (hd k).2 ?_⟩
    exact List.not_mem_cons_of_ne_of_not_mem hne hk

/-- **The next element counts** for all positions. -/
theorem Known.push (hd : Known h i s d) (hs : Popping h i s) (htop : ∀ t ∈ s.head?, h i ≤ h t)
    (k : ℕ) : Wait h (i + 1) k (d k) := by
  by_cases hk : k ∈ s
  · have hu := (hs.waiting k hk).2
    have hmem := ((hs.push htop).mem k).mp (List.mem_cons_of_mem i hk)
    exact .inr ⟨hmem.2, ((hd k).1 hk).eq_zero hu⟩
  · exact (hd k).2 hk

end Candcpp
