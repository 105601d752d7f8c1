import Mathlib.Data.Int.Init
import Mathlib.Data.Set.Card

/-!
# Runs of consecutive integers

The integers `x`, `x + 1`, and so on, `k` of them, are in a set (`Candcpp.Consecutive`). In a finite
set each of them ends at an integer that is not in the set (`Candcpp.exists_run`), and each can be
continued downwards to one that cannot be continued further (`Candcpp.Consecutive.exists_start`). So
**the longest of those that begin where they cannot be continued is the longest of all**
(`Candcpp.isGreatest_lengths`).
-/

namespace Candcpp

/-- The `k` integers from `x` on are in the set. -/
def Consecutive (s : Set ℤ) (x : ℤ) (k : ℕ) : Prop := ∀ i < k, x + i ∈ s

/-- How many consecutive integers there are in the set. -/
def lengths (s : Set ℤ) : Set ℕ := {k | ∃ x, Consecutive s x k}

/-- **The run** from `x` on: `k` integers are in the set, and the next one is not. -/
def Run (s : Set ℤ) (x : ℤ) (k : ℕ) : Prop := Consecutive s x k ∧ x + k ∉ s

variable {s : Set ℤ} {x y : ℤ} {k m ans : ℕ}

theorem consecutive_zero (s : Set ℤ) (x : ℤ) : Consecutive s x 0 :=
  fun _ hi => absurd hi (Nat.not_lt_zero _)

theorem Consecutive.mono (h : Consecutive s x k) (hm : m ≤ k) : Consecutive s x m :=
  fun i hi => h i (hi.trans_le hm)

/-- The next integer. -/
theorem Consecutive.succ (h : Consecutive s x k) (hk : x + k ∈ s) : Consecutive s x (k + 1) := by
  intro i hi
  rcases Nat.lt_succ_iff_lt_or_eq.mp hi with hlt | rfl
  · exact h i hlt
  · exact hk

/-- The integer before. -/
theorem Consecutive.pred (h : Consecutive s x k) (hx : x - 1 ∈ s) :
    Consecutive s (x - 1) (k + 1) := by
  intro i hi
  cases i with
  | zero => simpa using hx
  | succ i =>
    have hmem := h i (Nat.lt_of_succ_lt_succ hi)
    rwa [Nat.cast_succ, sub_add_add_cancel]

/-- **There are no more of them** than elements of the set. -/
theorem Consecutive.le_ncard (hs : s.Finite) (h : Consecutive s x k) : k ≤ s.ncard := by
  have hsub : (fun i : ℕ => x + i) '' Finset.range k ⊆ s := by
    rintro _ ⟨i, hi, rfl⟩
    exact h i (Finset.mem_range.mp hi)
  have hinj : Function.Injective fun i : ℕ => x + i := fun i j hij =>
    Nat.cast_injective (add_left_cancel hij)
  have hcard := Set.ncard_le_ncard hsub hs
  rwa [Set.ncard_image_of_injective _ hinj, Set.ncard_coe_finset, Finset.card_range] at hcard

/-- **A run ends.** -/
theorem exists_run (hs : s.Finite) (x : ℤ) : ∃ k, Run s x k := by
  classical
  have hex : ∃ k : ℕ, x + k ∉ s := by
    by_contra hall
    simp only [not_exists, not_not] at hall
    exact absurd (Consecutive.le_ncard hs (k := s.ncard + 1) fun i _ => hall i) (by omega)
  refine ⟨Nat.find hex, fun i hi => ?_, Nat.find_spec hex⟩
  exact not_not.mp (Nat.find_min hex hi)

theorem Run.le (h : Run s x k) (hm : Consecutive s x m) : m ≤ k := by
  by_contra hlt
  exact h.2 (hm k (not_le.mp hlt))

/-- **Consecutive integers are continued downwards**, as far as it goes. -/
theorem Consecutive.exists_start (hs : s.Finite) (h : Consecutive s x k) (hk : 0 < k) :
    ∃ y m, y ∈ s ∧ y - 1 ∉ s ∧ k ≤ m ∧ Consecutive s y m := by
  induction hd : s.ncard - k generalizing x k with
  | zero =>
    refine ⟨x, k, by simpa using h 0 hk, fun hx => ?_, le_rfl, h⟩
    exact absurd ((h.pred hx).le_ncard hs) (by omega)
  | succ d ih =>
    by_cases hx : x - 1 ∈ s
    · obtain ⟨y, m, hy, hstart, hle, hm⟩ := ih (h.pred hx) (Nat.succ_pos k) (by omega)
      exact ⟨y, m, hy, hstart, by omega, hm⟩
    · exact ⟨x, k, by simpa using h 0 hk, hx, le_rfl, h⟩

/-- **The longest run** is the longest of those that cannot be continued downwards. -/
theorem isGreatest_lengths (hs : s.Finite) (hans : ans ∈ lengths s)
    (hall : ∀ y ∈ s, y - 1 ∉ s → ∀ k, Run s y k → k ≤ ans) : IsGreatest (lengths s) ans := by
  refine ⟨hans, ?_⟩
  rintro k ⟨x, hx⟩
  rcases Nat.eq_zero_or_pos k with rfl | hpos
  · exact Nat.zero_le ans
  · obtain ⟨y, m, hy, hstart, hle, hm⟩ := hx.exists_start hs hpos
    obtain ⟨n, hn⟩ := exists_run hs y
    exact hle.trans ((hn.le hm).trans (hall y hy hstart n hn))

end Candcpp
