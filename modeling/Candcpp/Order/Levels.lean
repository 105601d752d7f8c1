import Mathlib.Algebra.BigOperators.Intervals
import Mathlib.Algebra.Order.BigOperators.Group.Finset
import Mathlib.Tactic.Ring

/-!
# Water between bars

A sequence of bars of given heights. Above each bar the water stands as high as the lower one of two
heights: that of the highest bar from the first one up to it, and that of the highest bar from it up
to the last one (`Candcpp.water`).

The first bars are looked at with a wall behind them, of a height that is raised bit by bit
(`Candcpp.level`). Up to the height of the last bar the wall changes nothing
(`Candcpp.level_eq_water`); when it is as high as the next bar, it stands for that bar
(`Candcpp.level_next`). In between, the water rises in one layer as far back as the first bar that
is higher (`Candcpp.level_rise`), and not at all if there is none (`Candcpp.level_top`).
-/

namespace Candcpp

open Finset

/-! ### The highest bar of a stretch -/

section Highest

variable {α : Type} [LinearOrder α] {h : ℕ → α} {a j k : ℕ} {v : α}

/-- The greatest of the heights at the position `a` and the `k` positions behind it. -/
def highest (h : ℕ → α) (a : ℕ) : ℕ → α
  | 0 => h a
  | k + 1 => max (highest h a k) (h (a + (k + 1)))

theorem highest_le_iff : highest h a k ≤ v ↔ ∀ j, a ≤ j → j ≤ a + k → h j ≤ v := by
  induction k with
  | zero =>
    refine ⟨fun hv j hj hj' => ?_, fun hv => hv a le_rfl le_rfl⟩
    rwa [show j = a by omega]
  | succ k ih =>
    rw [highest, max_le_iff, ih]
    constructor
    · rintro ⟨hv, hlast⟩ j hj hj'
      rcases (show j ≤ a + k ∨ j = a + (k + 1) by omega) with hle | rfl
      · exact hv j hj hle
      · exact hlast
    · exact fun hv => ⟨fun j hj hj' => hv j hj (by omega), hv _ (by omega) le_rfl⟩

theorem le_highest (hj : a ≤ j) (hj' : j ≤ a + k) : h j ≤ highest h a k :=
  highest_le_iff.mp le_rfl j hj hj'

/-- The first bar of a stretch. -/
theorem highest_succ (h : ℕ → α) (a k : ℕ) :
    highest h a (k + 1) = max (highest h (a + 1) k) (h a) := by
  refine eq_of_forall_ge_iff fun v => ?_
  rw [max_le_iff, highest_le_iff, highest_le_iff]
  constructor
  · exact fun hv => ⟨fun j hj hj' => hv j (by omega) (by omega), hv a le_rfl (by omega)⟩
  · rintro ⟨hv, hfirst⟩ j hj hj'
    rcases hj.eq_or_lt with rfl | hlt
    · exact hfirst
    · exact hv j hlt (by omega)

/-- **The highest bar is the greatest of the heights.** -/
theorem isGreatest_highest (h : ℕ → α) (a k : ℕ) :
    IsGreatest {x | ∃ j, a ≤ j ∧ j ≤ a + k ∧ h j = x} (highest h a k) := by
  constructor
  · induction k with
    | zero => exact ⟨a, le_rfl, le_rfl, rfl⟩
    | succ k ih =>
      obtain ⟨j, hj, hj', heq⟩ := ih
      rw [highest]
      rcases le_total (highest h a k) (h (a + (k + 1))) with hle | hle
      · exact ⟨a + (k + 1), by omega, le_rfl, (max_eq_right hle).symm⟩
      · exact ⟨j, hj, by omega, heq.trans (max_eq_left hle).symm⟩
  · rintro x ⟨j, hj, hj', rfl⟩
    exact le_highest hj hj'

end Highest

/-! ### The water -/

variable {h : ℕ → ℤ} {i l n : ℕ} {u v : ℤ}

/-- The water on the first `n` bars, where there are no others. -/
def water (h : ℕ → ℤ) (n : ℕ) : ℤ :=
  ∑ j ∈ range n, (min (highest h 0 j) (highest h j (n - 1 - j)) - h j)

/-- The water on the first `i` bars, with a wall of height `v` behind them. -/
def level (h : ℕ → ℤ) (i : ℕ) (v : ℤ) : ℤ :=
  ∑ j ∈ range i, (min (highest h 0 j) (max (highest h j (i - 1 - j)) v) - h j)

/-- **A wall no higher than the last bar** changes nothing. -/
theorem level_eq_water (hv : v ≤ h i) : level h (i + 1) v = water h (i + 1) := by
  refine sum_congr rfl fun j hj => ?_
  rw [mem_range] at hj
  rw [max_eq_left (hv.trans (le_highest (by omega) (by omega)))]

/-- **A wall as high as the next bar** stands for that bar. -/
theorem level_next (h : ℕ → ℤ) (i : ℕ) : level h i (h i) = water h (i + 1) := by
  have hlast : min (highest h 0 i) (highest h i (i + 1 - 1 - i)) - h i = 0 := by
    rw [show i + 1 - 1 - i = 0 by omega, highest, min_eq_right, sub_self]
    exact le_highest (Nat.zero_le i) (by omega)
  rw [water, sum_range_succ, hlast, add_zero]
  refine sum_congr rfl fun j hj => ?_
  rw [mem_range] at hj
  rw [show i + 1 - 1 - j = i - 1 - j + 1 by omega, highest,
    show j + (i - 1 - j + 1) = i by omega]

/-- **The water rises in one layer**, from the last bar back to the first one that is higher. -/
theorem level_rise (hli : l < i) (hlow : ∀ k, l < k → k < i → h k ≤ u) (huv : u ≤ v)
    (hl : v ≤ h l) : level h i v = level h i u + ((i : ℤ) - l - 1) * (v - u) := by
  have hcount : ∑ j ∈ range i, (if l < j then v - u else 0) = ((i : ℤ) - l - 1) * (v - u) := by
    have hfront : ∑ j ∈ range (l + 1), (if l < j then v - u else 0) = 0 :=
      sum_eq_zero fun j hj => if_neg (by rw [mem_range] at hj; omega)
    have hback : ∑ j ∈ Ico (l + 1) i, (if l < j then v - u else 0) =
        ∑ _j ∈ Ico (l + 1) i, (v - u) :=
      sum_congr rfl fun j hj => if_pos (by rw [mem_Ico] at hj; omega)
    rw [← sum_range_add_sum_Ico _ (show l + 1 ≤ i from hli), hfront, hback, zero_add, sum_const,
      Nat.card_Ico, nsmul_eq_mul]
    congr 1
    omega
  rw [← hcount, level, level, ← sum_add_distrib]
  refine sum_congr rfl fun j hj => ?_
  rw [mem_range] at hj
  split_ifs with hlj
  · -- behind the higher bar the water stands at the wall's height
    have hright : highest h j (i - 1 - j) ≤ u :=
      highest_le_iff.mpr fun k hk hk' => hlow k (by omega) (by omega)
    have hleft : v ≤ highest h 0 j := hl.trans (le_highest (Nat.zero_le l) (by omega))
    rw [max_eq_right (hright.trans huv), max_eq_right hright, min_eq_right hleft,
      min_eq_right (huv.trans hleft)]
    ring
  · -- up to that bar the wall is of no use
    have hright : v ≤ highest h j (i - 1 - j) := hl.trans (le_highest (by omega) (by omega))
    rw [max_eq_left hright, max_eq_left (huv.trans hright), add_zero]

/-- **The water does not rise** where the wall is higher than all bars. -/
theorem level_top (hlow : ∀ k, k < i → h k ≤ u) (huv : u ≤ v) : level h i v = level h i u := by
  refine sum_congr rfl fun j hj => ?_
  rw [mem_range] at hj
  have hright : highest h j (i - 1 - j) ≤ u :=
    highest_le_iff.mpr fun k hk hk' => hlow k (by omega)
  have hleft : highest h 0 j ≤ u := highest_le_iff.mpr fun k hk hk' => hlow k (by omega)
  rw [max_eq_right (hright.trans huv), max_eq_right hright, min_eq_left (hleft.trans huv),
    min_eq_left hleft]

end Candcpp
