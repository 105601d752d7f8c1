import Candcpp.Cpp.Exec
import Candcpp.Order.Levels

/-!
# Trapped water

The two versions of `42.cpp`, which compute how much water stands between bars of given heights.
`trap_dp` computes the highest bar at or before each bar, and at or behind it, in two arrays, and
adds the water bar by bar. `trap_ds` keeps a stack of the bars that can be seen from the right end
(`Candcpp.Trap.Visible`), and adds the water in layers: whenever a bar is removed because a higher
one has come, the layer between that one and the bar below on the stack.

What the stack has accounted for is the water with a wall behind the bars so far, as high as the one
on top of the stack, or as the new bar if that is lower (`Candcpp.Trap.popLoop_eq`). So **both
versions compute the water** (`Candcpp.Trap.same_water`).

The arithmetic is exact. A position is not bounded, since a vector has no more elements than an
`int` counts.
-/

namespace Candcpp

open Cpp

namespace Trap

/-! ### The code -/

/-- `for (int i = 1; i < n; i++)`, which leaves behind `left_max` and `right_max`. -/
def maxLoop (height : List ℤ) (n i : ℤ) (leftMax rightMax : Arr ℤ) : Exec (Arr ℤ × Arr ℤ) := do
  let +zeta maxLoop : type_of% maxLoop := by apply maxLoop
  if i < n then
    let l ← leftMax.getInt (i - 1)
    let x ← nth height i
    let leftMax ← leftMax.putInt i (max l x)
    let r ← rightMax.getInt (n - i)
    let y ← nth height (n - 1 - i)
    let rightMax ← rightMax.putInt (n - 1 - i) (max r y)
    maxLoop height n (i + 1) leftMax rightMax
  else
    pure (leftMax, rightMax)
partial_fixpoint

/-- `for (int i = 0; i < n; i++)` of `trap_dp`, which leaves behind `ans`. -/
def sumLoop (height : List ℤ) (leftMax rightMax : Arr ℤ) (n i ans : ℤ) : Exec ℤ := do
  let +zeta sumLoop : type_of% sumLoop := by apply sumLoop
  if i < n then
    let l ← leftMax.getInt i
    let r ← rightMax.getInt i
    let x ← nth height i
    sumLoop height leftMax rightMax n (i + 1) (ans + (min l r - x))
  else
    pure ans
partial_fixpoint

/-- `trap_dp`. -/
def trapDp (height : List ℤ) : Exec ℤ := do
  let n : ℤ := height.length
  let first ← nth height 0
  let leftMax ← (Arr.fill height.length 0).putInt 0 first
  let last ← nth height (n - 1)
  let rightMax ← (Arr.fill height.length 0).putInt (n - 1) last
  let p ← maxLoop height n 1 leftMax rightMax
  sumLoop height p.1 p.2 n 0 0

/-- `while (!s.empty() && height[s.top()] < height[i])`, which leaves behind the stack and `ans`.
The first element of the list is the top of the stack. -/
def popLoop (height : List ℤ) (i : ℕ) : List ℕ → ℤ → Exec (List ℕ × ℤ)
  | [], ans => pure ([], ans)
  | top :: s, ans => do
    let x ← nth height top
    let y ← nth height i
    if x < y then
      match s with
      | [] => pure ([], ans)
      | left :: _ => do
        let z ← nth height left
        popLoop height i s (ans + ((i : ℤ) - left - 1) * (min z y - x))
    else
      pure (top :: s, ans)

/-- `for (int i = 0; i < height.size(); i++)` of `trap_ds`, which leaves behind `ans`. -/
def stackLoop (height : List ℤ) (i : ℕ) (s : List ℕ) (ans : ℤ) : Exec ℤ := do
  let +zeta stackLoop : type_of% stackLoop := by apply stackLoop
  if i < height.length then
    let p ← popLoop height i s ans
    stackLoop height (i + 1) (i :: p.1) p.2
  else
    pure ans
partial_fixpoint

/-- `trap_ds`. -/
def trapDs (height : List ℤ) : Exec ℤ := stackLoop height 0 [] 0

/-! ### Bar by bar -/

/-- The heights, as a sequence. -/
def bars (height : List ℤ) (i : ℕ) : ℤ := height.getD i 0

variable {height : List ℤ} {leftMax rightMax : Arr ℤ} {h : ℕ → ℤ} {ans : ℤ} {i j l m n t : ℕ}
  {s : List ℕ}

theorem nth_bars (hi : i < height.length) : nth height i = pure (bars height i) := nth_getD hi 0

/-- **What the two arrays hold** when `i` elements of each have been set: those of the one from the
first on, and those of the other from the last one back. -/
structure Filled (h : ℕ → ℤ) (n i : ℕ) (leftMax rightMax : Arr ℤ) : Prop where
  left_size : leftMax.size = n
  right_size : rightMax.size = n
  left : ∀ j < i, leftMax.data j = highest h 0 j
  right : ∀ j < n, n - 1 - j < i → rightMax.data j = highest h j (n - 1 - j)

/-- **The loop** sets the two arrays. -/
theorem maxLoop_eq (hi : 1 ≤ i) (hin : i ≤ height.length)
    (hf : Filled (bars height) height.length i leftMax rightMax) : ∃ leftMax' rightMax',
    maxLoop height height.length i leftMax rightMax = pure (leftMax', rightMax') ∧
      Filled (bars height) height.length height.length leftMax' rightMax' := by
  induction hd : height.length - i generalizing i leftMax rightMax with
  | zero =>
    obtain rfl : i = height.length := by omega
    rw [maxLoop, if_neg (lt_irrefl _)]
    exact ⟨leftMax, rightMax, rfl, hf⟩
  | succ d ih =>
    obtain ⟨k, rfl⟩ : ∃ k, i = k + 1 := ⟨i - 1, by omega⟩
    obtain ⟨m, hm⟩ : ∃ m, height.length = m + 1 + (k + 1) := ⟨height.length - (k + 2), by omega⟩
    have hprev : ((k + 1 : ℕ) : ℤ) - 1 = k := by omega
    have hright : (height.length : ℤ) - (k + 1 : ℕ) = (m + 1 : ℕ) := by omega
    have hright' : (height.length : ℤ) - 1 - (k + 1 : ℕ) = m := by omega
    have hnext : ((k + 1 : ℕ) : ℤ) + 1 = (k + 1 + 1 : ℕ) := by push_cast; rfl
    have hl := hf.left_size
    have hr := hf.right_size
    rw [maxLoop, if_pos (by omega), hprev, Arr.getInt_eq (by omega), pure_bind,
      nth_bars (by omega), pure_bind, Arr.putInt_eq (by omega), pure_bind, hright,
      Arr.getInt_eq (by omega), pure_bind, hright', nth_bars (by omega), pure_bind,
      Arr.putInt_eq (by omega), pure_bind, hnext, hf.left k (by omega),
      hf.right (m + 1) (by omega) (by omega)]
    refine ih (by omega) (by omega) ⟨hl, hr, fun j hj => ?_, fun j hj hj' => ?_⟩ (by omega)
    · dsimp only
      rcases eq_or_ne j (k + 1) with rfl | hne
      · rw [Function.update_self, highest, Nat.zero_add]
      · rw [Function.update_of_ne hne]
        exact hf.left j (by omega)
    · dsimp only
      rcases eq_or_ne j m with rfl | hne
      · rw [Function.update_self, show height.length - 1 - j = k + 1 by omega,
          show height.length - 1 - (j + 1) = k by omega, highest_succ]
      · rw [Function.update_of_ne hne]
        exact hf.right j hj (by omega)

/-- **The sum** of what stands above the bars. -/
theorem sumLoop_eq (ans : ℤ)
    (hf : Filled (bars height) height.length height.length leftMax rightMax)
    (hi : i ≤ height.length) : sumLoop height leftMax rightMax height.length i ans =
      pure (ans + ∑ j ∈ Finset.Ico i height.length, (min (highest (bars height) 0 j)
        (highest (bars height) j (height.length - 1 - j)) - bars height j)) := by
  induction hd : height.length - i generalizing i ans with
  | zero =>
    obtain rfl : i = height.length := by omega
    rw [sumLoop, if_neg (lt_irrefl _), Finset.Ico_self, Finset.sum_empty, add_zero]
  | succ d ih =>
    have hl := hf.left_size
    have hr := hf.right_size
    have hnext : (i : ℤ) + 1 = (i + 1 : ℕ) := by push_cast; rfl
    rw [sumLoop, if_pos (by omega), Arr.getInt_eq (by omega), pure_bind, Arr.getInt_eq (by omega),
      pure_bind, nth_bars (by omega), pure_bind, hnext, ih _ (by omega) (by omega),
      hf.left i (by omega), hf.right i (by omega) (by omega),
      Finset.sum_eq_sum_Ico_succ_bot (show i < height.length by omega), add_assoc]

/-- **`trap_dp` computes the water.** -/
theorem trapDp_eq (hne : height ≠ []) :
    trapDp height = pure (water (bars height) height.length) := by
  obtain ⟨n, hn⟩ := Nat.exists_eq_succ_of_ne_zero (mt List.eq_nil_of_length_eq_zero hne)
  have hlast : (height.length : ℤ) - 1 = n := by omega
  have hsize : (Arr.fill height.length (0 : ℤ)).size = height.length := rfl
  have hstart : Filled (bars height) height.length 1
      ⟨Function.update (Arr.fill height.length 0).data 0 (bars height 0), height.length⟩
      ⟨Function.update (Arr.fill height.length 0).data n (bars height n), height.length⟩ := by
    refine ⟨rfl, rfl, fun j hj => ?_, fun j hj hj' => ?_⟩
    · obtain rfl : j = 0 := by omega
      dsimp only
      rw [Function.update_self, highest]
    · obtain rfl : j = n := by omega
      dsimp only
      rw [Function.update_self, show height.length - 1 - j = 0 by omega, highest]
  obtain ⟨leftMax, rightMax, hrun, hf⟩ := maxLoop_eq le_rfl (by omega) hstart
  have hsum := sumLoop_eq 0 hf (Nat.zero_le _)
  rw [zero_add, Nat.cast_zero, ← Finset.range_eq_Ico, ← water] at hsum
  have hfirst : nth height 0 = pure (bars height 0) := nth_bars (i := 0) (by omega)
  have hput := Arr.putInt_eq (a := Arr.fill height.length (0 : ℤ)) (i := 0) (by omega)
    (bars height 0)
  rw [Nat.cast_zero] at hput
  rw [trapDp, hfirst, pure_bind, hput, pure_bind, hlast, nth_bars (by omega), pure_bind,
    Arr.putInt_eq (by omega), pure_bind, ← Nat.cast_one, hsize, hrun, pure_bind, hsum]

/-! ### Layer by layer -/

/-- **The bars on the stack** are those of the first `i` that can be seen from behind: on top of
each one there is the highest of the bars behind it, the last one of these. -/
inductive Visible (h : ℕ → ℤ) (i : ℕ) : List ℕ → Prop
  /-- The highest bar of all. -/
  | bottom {t : ℕ} (hti : t < i) (hall : ∀ k < i, h k ≤ h t) : Visible h i [t]
  /-- The highest bar behind the one below. -/
  | above {t l : ℕ} {s : List ℕ} (hlt : l < t) (hti : t < i)
      (hbehind : ∀ k, l < k → k < i → h k ≤ h t) (hle : h t ≤ h l) (hs : Visible h i (l :: s)) :
      Visible h i (t :: l :: s)

/-- The stack is as before when a bar has come that is no higher than the one on top. -/
theorem Visible.succ (hv : Visible h i (t :: s)) (hle : h i ≤ h t) :
    Visible h (i + 1) (t :: s) := by
  generalize hs : t :: s = stack at hv
  induction hv generalizing t s with
  | bottom hti hall =>
    obtain ⟨rfl, rfl⟩ := List.cons.inj hs
    refine .bottom (by omega) fun k hk => ?_
    rcases Nat.lt_succ_iff_lt_or_eq.mp hk with hlt | rfl
    · exact hall k hlt
    · exact hle
  | above hlt hti hbehind hle' _ ih =>
    obtain ⟨rfl, rfl⟩ := List.cons.inj hs
    refine .above hlt (by omega) (fun k hk hki => ?_) hle' (ih (hle.trans hle') rfl)
    rcases Nat.lt_succ_iff_lt_or_eq.mp hki with hki | rfl
    · exact hbehind k hk hki
    · exact hle

/-- **A new bar** is put on top of one that is not lower, and that hides all the others behind
it. -/
theorem Visible.push (hv : Visible h i (t :: s)) (hti : t < i)
    (hbehind : ∀ k, t < k → k < i → h k ≤ h i) (hle : h i ≤ h t) :
    Visible h (i + 1) (i :: t :: s) := by
  refine .above hti (Nat.lt_succ_self i) (fun k hk hki => ?_) hle (hv.succ hle)
  rcases Nat.lt_succ_iff_lt_or_eq.mp hki with hki | rfl
  · exact hbehind k hk hki
  · exact le_rfl

/-- **The inner loop** removes the bars that are lower than the new one, and accounts for the water
up to its height. -/
theorem popLoop_eq (hi : i < height.length) (hv : Visible (bars height) i (t :: s)) (hti : t < i)
    (hbehind : ∀ k, t < k → k < i → bars height k ≤ bars height i) : ∃ s',
    popLoop height i (t :: s) (level (bars height) i (min (bars height t) (bars height i))) =
      pure (s', level (bars height) i (bars height i)) ∧
      Visible (bars height) (i + 1) (i :: s') := by
  generalize hs : t :: s = stack at hv
  induction hv generalizing t s with
  | bottom hti hall =>
    obtain ⟨rfl, rfl⟩ := List.cons.inj hs
    rw [popLoop, nth_bars (by omega), pure_bind, nth_bars hi, pure_bind]
    by_cases hlt : bars height t < bars height i
    · rw [if_pos hlt, min_eq_left hlt.le, level_top hall hlt.le]
      refine ⟨[], rfl, .bottom (Nat.lt_succ_self i) fun k hk => ?_⟩
      rcases Nat.lt_succ_iff_lt_or_eq.mp hk with hki | rfl
      · exact (hall k hki).trans hlt.le
      · exact le_rfl
    · have hle := not_lt.mp hlt
      rw [if_neg hlt, min_eq_right hle]
      exact ⟨[t], rfl, (Visible.bottom hti hall).push hti hbehind hle⟩
  | @above t' l s' hlt' hti' hbehind' hle' hv ih =>
    obtain ⟨rfl, rfl⟩ := List.cons.inj hs
    rw [popLoop, nth_bars (by omega), pure_bind, nth_bars hi, pure_bind]
    by_cases hlt : bars height t < bars height i
    · -- the layer between the bar below and the new one, down to the bar that is removed
      have hlayer := level_rise (u := bars height t) (v := min (bars height l) (bars height i))
        (by omega : l < i) hbehind' (le_min hle' hlt.le) (min_le_left _ _)
      rw [if_pos hlt]
      dsimp only
      rw [nth_bars (by omega), pure_bind, min_eq_left hlt.le, ← hlayer]
      exact ih (by omega) (fun k hk hki => (hbehind' k hk hki).trans hlt.le) rfl
    · have hle := not_lt.mp hlt
      rw [if_neg hlt, min_eq_right hle]
      exact ⟨t :: l :: s', rfl, (Visible.above hlt' hti hbehind' hle' hv).push hti hbehind hle⟩

/-- **The loop** accounts for the water on the bars so far. -/
theorem stackLoop_eq (hm : m < height.length) (hv : Visible (bars height) (m + 1) (m :: s)) :
    stackLoop height (m + 1) (m :: s) (water (bars height) (m + 1)) =
      pure (water (bars height) height.length) := by
  induction hd : height.length - (m + 1) generalizing m s with
  | zero =>
    rw [stackLoop, if_neg (by omega), show m + 1 = height.length by omega]
  | succ d ih =>
    have hlt : m + 1 < height.length := by omega
    obtain ⟨s', hrun, hv'⟩ := popLoop_eq hlt hv (Nat.lt_succ_self m) fun k hk hkm => by omega
    rw [level_eq_water (min_le_left _ _), level_next] at hrun
    rw [stackLoop, if_pos hlt, hrun, pure_bind]
    exact ih hlt hv' (by omega)

/-- **`trap_ds` computes the water.** -/
theorem trapDs_eq (height : List ℤ) :
    trapDs height = pure (water (bars height) height.length) := by
  rw [trapDs, stackLoop]
  rcases Nat.eq_zero_or_pos height.length with hzero | hpos
  · rw [if_neg (by omega), hzero]
    rfl
  · have hfirst : water (bars height) 1 = 0 := by
      rw [← level_next, level, Finset.range_zero, Finset.sum_empty]
    have hv : Visible (bars height) 1 [0] :=
      .bottom Nat.zero_lt_one fun k hk => by rw [Nat.lt_one_iff.mp hk]
    rw [if_pos hpos, popLoop, pure_bind, ← hfirst]
    exact stackLoop_eq hpos hv

/-- **Both versions compute the water**: for each bar the lower one of the highest bar up to it and
of the highest bar from it on, less the bar itself. -/
theorem same_water {height : List ℤ} (hne : height ≠ []) :
    trapDp height = pure (water (bars height) height.length) ∧
      trapDs height = pure (water (bars height) height.length) :=
  ⟨trapDp_eq hne, trapDs_eq height⟩

/-- Two bars of height two, with a lower one between them. -/
theorem same_water_three : trapDp [2, 0, 2] = pure (water (bars [2, 0, 2]) 3) ∧
    trapDs [2, 0, 2] = pure (water (bars [2, 0, 2]) 3) :=
  same_water (List.cons_ne_nil _ _)

end Trap

end Candcpp
