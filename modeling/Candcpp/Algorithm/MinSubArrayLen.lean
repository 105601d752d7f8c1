import Candcpp.Cpp.Exec
import Candcpp.Order.Windows

/-!
# The shortest subarray with a sum

`minSubArrayLen` of `209.cpp`, which looks for the shortest subarray whose sum is at least a target.
It moves a window over the array; the window loses its first element as long as it would still
qualify without it. So the window qualifies from the first time on that some window does, and it is
then the shortest one with its end (`Candcpp.MinSubArrayLen.shrinkLoop_eq`), which is why no start
that is left behind is missed. **The least length is returned**
(`Candcpp.MinSubArrayLen.minSubArrayLen_eq`).

What is watched in each turn of the inner loop are the two ends, of which the left one is never
behind the right one.

The arithmetic is exact. A position is not bounded, since a vector has no more elements than an
`int` counts.
-/

namespace Candcpp

open Cpp

namespace MinSubArrayLen

/-! ### The code -/

section Code

/-! What is watched, at each test of the inner loop, is a parameter; in the code it is nothing. -/

variable (watch : ℤ → ℤ → Exec Unit)

/-- `while (sum - nums[left] >= target)`, which leaves behind `sum` and `left`. -/
def shrinkLoop (nums : List ℤ) (target right sum left : ℤ) : Exec (ℤ × ℤ) := do
  let +zeta shrinkLoop : type_of% shrinkLoop := by apply shrinkLoop
  watch left right
  let x ← nth nums left
  if sum - x ≥ target then
    shrinkLoop nums target right (sum - x) (left + 1)
  else
    pure (sum, left)
partial_fixpoint

/-- `for (int right = 0; right < n; ++right)`, which leaves behind `ans`. -/
def slideLoop (nums : List ℤ) (target n right sum left ans : ℤ) : Exec ℤ := do
  let +zeta slideLoop : type_of% slideLoop := by apply slideLoop
  if right < n then
    let x ← nth nums right
    let p ← shrinkLoop watch nums target right (sum + x) left
    if p.1 ≥ target then
      slideLoop nums target n (right + 1) p.1 p.2 (min ans (right - p.2 + 1))
    else
      slideLoop nums target n (right + 1) p.1 p.2 ans
  else
    pure ans
partial_fixpoint

/-- `minSubArrayLen`. -/
def minSubArrayLen (target : ℤ) (nums : List ℤ) : Exec ℤ := do
  let n : ℤ := nums.length
  let ans ← slideLoop watch nums target n 0 0 0 (n + 1)
  pure (if ans ≤ n then ans else 0)

end Code

/-! ### The sums -/

/-- The sum of the elements from the position `l` on and before `r` is at least the target. -/
def Qualifies (nums : List ℤ) (target : ℤ) (l r : ℕ) : Prop := target ≤ (between nums l r).sum

/-- **The right answer**: the length of the shortest subarray that qualifies, or `0` if there is
none. -/
def Shortest (nums : List ℤ) (target ans : ℤ) : Prop :=
  (∃ m : ℕ, IsLeast (goodLengths (Qualifies nums target) nums.length) m ∧ ans = m) ∨
    (goodLengths (Qualifies nums target) nums.length = ∅ ∧ ans = 0)

variable {watch : ℤ → ℤ → Exec Unit} {nums : List ℤ} {target ans : ℤ} {i l r n : ℕ}

/-- **The sum of a larger window is greater.** -/
theorem extends_qualifies (hpos : ∀ x ∈ nums, 0 < x) (target : ℤ) :
    Extends (Qualifies nums target) := by
  intro l r l' r' hl hlr hr hsum
  have hnonneg : ∀ a b, 0 ≤ (between nums a b).sum := fun a b => by
    refine List.sum_nonneg fun x hx => ?_
    obtain ⟨k, -, -, hk⟩ := mem_between hx
    exact (hpos x (List.mem_of_getElem? hk)).le
  have hleft := hnonneg l' l
  have hright := hnonneg r r'
  rw [Qualifies] at hsum ⊢
  rw [between_append hl (hlr.le.trans hr), between_append (l := nums) hlr.le hr, List.sum_append,
    List.sum_append]
  omega

/-- **The inner loop** stops at a window that does not qualify without its first element; and it has
not moved, or the window qualifies. -/
theorem shrinkLoop_eq (hwatch : ∀ l r : ℤ, l ≤ r → watch l r = pure ()) (htarget : 1 ≤ target)
    (hr : r < nums.length) (hl : l ≤ r) : ∃ l' : ℕ, l ≤ l' ∧ l' ≤ r ∧
      shrinkLoop watch nums target r (between nums l (r + 1)).sum l =
        pure ((between nums l' (r + 1)).sum, (l' : ℤ)) ∧
      ¬ Qualifies nums target (l' + 1) (r + 1) ∧ (l' = l ∨ Qualifies nums target l' (r + 1)) := by
  obtain ⟨d, hd⟩ := Nat.exists_eq_add_of_le hl
  induction d generalizing l with
  | zero =>
    obtain rfl : r = l := hd
    have hx : nums[r]? = some nums[r] := List.getElem?_eq_getElem hr
    have hfail : ¬ Qualifies nums target (r + 1) (r + 1) := by
      rw [Qualifies, between_self, List.sum_nil]
      omega
    refine ⟨r, le_rfl, le_rfl, ?_, hfail, .inl rfl⟩
    rw [shrinkLoop, hwatch r r le_rfl, pure_bind, nth_eq hx, pure_bind,
      between_cons (Nat.lt_succ_self r) hx, between_self, List.sum_cons, List.sum_nil, add_zero,
      sub_self, if_neg (by omega)]
  | succ d ih =>
    have hx : nums[l]? = some nums[l] := List.getElem?_eq_getElem (by omega)
    have hrest : (between nums l (r + 1)).sum - nums[l] = (between nums (l + 1) (r + 1)).sum := by
      rw [between_cons (by omega) hx, List.sum_cons, add_sub_cancel_left]
    rw [shrinkLoop, hwatch l r (by omega), pure_bind, nth_eq hx, pure_bind, hrest]
    by_cases hq : (between nums (l + 1) (r + 1)).sum ≥ target
    · obtain ⟨l', hl', hlr, hrun, hfail, hor⟩ := ih (l := l + 1) (by omega) (by omega)
      rw [if_pos hq, ← Nat.cast_succ]
      refine ⟨l', by omega, hlr, hrun, hfail, .inr ?_⟩
      rcases hor with rfl | hgood
      · exact hq
      · exact hgood
    · rw [if_neg hq]
      exact ⟨l, le_rfl, hl, rfl, hq, .inl rfl⟩

/-- **The loop** accounts for all windows. -/
theorem slideLoop_eq (hwatch : ∀ l r : ℤ, l ≤ r → watch l r = pure ()) (htarget : 1 ≤ target)
    (hpos : ∀ x ∈ nums, 0 < x) (hr : r ≤ nums.length) (hl : l ≤ r)
    (hfirst : l = 0 ∨ l < r ∧ Qualifies nums target l r) {top : ℤ}
    (hans : Accounted (Qualifies nums target) r r top ans) : ∃ ans',
      slideLoop watch nums target nums.length r (between nums l r).sum l ans = pure ans' ∧
        Accounted (Qualifies nums target) nums.length nums.length top ans' := by
  have hext := extends_qualifies hpos target
  obtain ⟨d, hd⟩ := Nat.exists_eq_add_of_le hr
  induction d generalizing r l ans with
  | zero =>
    obtain rfl : nums.length = r := hd
    exact ⟨ans, by rw [slideLoop, if_neg (lt_irrefl _)], hans⟩
  | succ d ih =>
    have hx : nums[r]? = some nums[r] := List.getElem?_eq_getElem (by omega)
    have hsum : (between nums l r).sum + nums[r] = (between nums l (r + 1)).sum := by
      rw [between_concat hl hx, List.sum_append, List.sum_singleton]
    obtain ⟨l', hle, hlr, hrun, hfail, hor⟩ :=
      shrinkLoop_eq hwatch htarget (show r < nums.length by omega) hl
    rw [slideLoop, if_pos (by omega), nth_eq hx, pure_bind, hsum, hrun, pure_bind, ← Nat.cast_succ]
    dsimp only
    by_cases hq : (between nums l' (r + 1)).sum ≥ target
    · -- the shortest window with this end
      have hlast : ∀ k, l' < k → k ≤ r → ¬ Qualifies nums target k (r + 1) := fun k hk hkr hgood =>
        hfail (hext k (r + 1) (l' + 1) (r + 1) hk (by omega) le_rfl hgood)
      rw [if_pos hq, show (r : ℤ) - l' + 1 = (r : ℤ) + 1 - l' by ring]
      exact ih (by omega) (by omega) (.inr ⟨by omega, hq⟩) (hans.ending hlr hq hlast) (by omega)
    · -- the window has not qualified so far, and it still starts at the first element
      obtain rfl : l' = l := hor.resolve_right hq
      have hzero : l' = 0 := by
        refine hfirst.resolve_right fun h => hq ?_
        exact hext l' r l' (r + 1) le_rfl h.1 (Nat.le_succ r) h.2
      have hnone : ∀ k ≤ r, ¬ Qualifies nums target k (r + 1) := fun k hk hgood =>
        hq (hext k (r + 1) l' (r + 1) (by omega) (by omega) le_rfl hgood)
      rw [if_neg hq]
      exact ih (by omega) (by omega) (.inl hzero) (hans.no_ending hnone) (by omega)

/-- **The function returns the length of the shortest subarray** whose sum is at least the target,
and the left end of the window is never behind the right one. -/
theorem minSubArrayLen_eq (hwatch : ∀ l r : ℤ, l ≤ r → watch l r = pure ()) (htarget : 1 ≤ target)
    (hpos : ∀ x ∈ nums, 0 < x) :
    ∃ ans, minSubArrayLen watch target nums = pure ans ∧ Shortest nums target ans := by
  obtain ⟨ans, hrun, hans⟩ := slideLoop_eq (r := 0) (l := 0) hwatch htarget hpos
    (Nat.zero_le _) le_rfl (.inl rfl) (.zero (Qualifies nums target) 0 ((nums.length : ℤ) + 1))
  rw [between_self, List.sum_nil, Nat.cast_zero] at hrun
  refine ⟨if ans ≤ nums.length then ans else 0, by rw [minSubArrayLen, hrun, pure_bind], ?_⟩
  rcases exists_isLeast_or (Qualifies nums target) nums.length with hnone | ⟨m, hm⟩
  · rw [hans.eq_top hnone, if_neg (by omega)]
    exact .inr ⟨hnone, rfl⟩
  · obtain ⟨-, k, hk, -⟩ := hm.1
    have hmin : ans = m := by
      rw [hans.eq_min hm]
      omega
    rw [hmin, if_pos (by omega)]
    exact .inl ⟨m, hm, rfl⟩

/-- An observer that only returns while the left end is not behind the right one. -/
def ordered (left right : ℤ) : Exec Unit :=
  if left ≤ right then pure () else (none : Result Unit)

/-- The shortest subarray with a sum of at least seven has two elements. -/
theorem minSubArrayLen_six : ∃ ans, minSubArrayLen ordered 7 [2, 3, 1, 2, 4, 3] = pure ans ∧
    Shortest [2, 3, 1, 2, 4, 3] 7 ans :=
  minSubArrayLen_eq (fun _ _ h => if_pos h) (by decide) (by decide)

end MinSubArrayLen

end Candcpp
