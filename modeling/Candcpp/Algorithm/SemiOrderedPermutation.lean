import Candcpp.Cpp.Exec
import Candcpp.Order.AdjacentSwaps

/-!
# Swaps to a permutation that begins and ends in order

The program of `2717.cpp`. How many swaps of adjacent elements does it take at least until a
permutation of the numbers from 1 to `n` begins with 1 and ends with `n`? Where one of the two
numbers is at its end already the program looks for the other one and returns how far it is from the
other end. Otherwise it looks for both, and takes one off where they have to pass each other.

This is the least number (`Candcpp.isLeast_toEnds`). But the last formula begins with the sum of the
position of 1 and `n`, which may be greater than an `int`. So **the program is right exactly if one
of the numbers is at its end, or this sum is an `int`**
(`Candcpp.SemiOrderedPermutation.semiOrderedPermutation_iff`).

Since `n` is an element, it is an `int`.
-/

namespace Candcpp

open Cpp

namespace SemiOrderedPermutation

/-! ### The code -/

/-- `nums[i] == x`. -/
def holds (nums : List ℤ) (i x : ℤ) : Exec Bool := do
  let y ← nth nums i
  pure (decide (y = x))

/-- `for (int i = 0; i < n; i++)` with `if (nums[i] == x)`: the position at which it returns, if it
does. -/
def findLoop (nums : List ℤ) (n x i : ℤ) : Exec (Option ℤ) := do
  let +zeta findLoop : type_of% findLoop := by apply findLoop
  if i < n then
    if ← holds nums i x then
      pure (some i)
    else
      findLoop nums n x (i + 1)
  else
    pure none
partial_fixpoint

/-- The last loop, which leaves behind `one_idx` and `n_idx`. -/
def placesLoop (nums : List ℤ) (n i oneIdx nIdx : ℤ) : Exec (ℤ × ℤ) := do
  let +zeta placesLoop : type_of% placesLoop := by apply placesLoop
  if i < n then
    let oneIdx := if ← holds nums i 1 then i else oneIdx
    let nIdx := if ← holds nums i n then i else nIdx
    placesLoop nums n (i + 1) oneIdx nIdx
  else
    pure (oneIdx, nIdx)
partial_fixpoint

/-- What is behind the branches with a `return`. -/
def general (oneIdx nIdx : ℤ) (nums : List ℤ) : Exec ℤ := do
  let n : ℤ := nums.length
  let (oneIdx, nIdx) ← placesLoop nums n 0 oneIdx nIdx
  let x ← int (oneIdx + n)
  let x ← int (x - 1)
  let x ← int (x - nIdx)
  if oneIdx > nIdx then
    int (x - 1)
  else
    pure x

/-- `if (nums[n-1] == n)`, and what is behind it. -/
def lastBranch (oneIdx nIdx : ℤ) (nums : List ℤ) : Exec ℤ := do
  let n : ℤ := nums.length
  if ← holds nums (n - 1) n then
    match ← findLoop nums n 1 0 with
    | some i => pure i
    | none => general oneIdx nIdx nums
  else
    general oneIdx nIdx nums

/-- `if (nums[0] == 1)`, and what is behind it. -/
def firstBranch (oneIdx nIdx : ℤ) (nums : List ℤ) : Exec ℤ := do
  let n : ℤ := nums.length
  if ← holds nums 0 1 then
    match ← findLoop nums n n 0 with
    | some i => pure (n - 1 - i)
    | none => lastBranch oneIdx nIdx nums
  else
    lastBranch oneIdx nIdx nums

/-- `semiOrderedPermutation`, where `oneIdx` and `nIdx` are what the variables hold before they are
first written. -/
def semiOrderedPermutation (oneIdx nIdx : ℤ) (nums : List ℤ) : Exec ℤ := do
  let n : ℤ := nums.length
  if ← holds nums 0 1 then
    if ← holds nums (n - 1) n then
      pure 0
    else
      firstBranch oneIdx nIdx nums
  else
    firstBranch oneIdx nIdx nums

/-! ### Positions -/

variable {nums : List ℤ} {x oneIdx nIdx : ℤ} {i n p q : ℕ}

/-- A permutation of the numbers from 1 to `n`. -/
def IsPermutation (nums : List ℤ) (n : ℕ) : Prop :=
  nums.Perm ((List.range' 1 n).map fun k : ℕ => (k : ℤ))

theorem holds_eq (hi : i < nums.length) (x : ℤ) :
    holds nums i x = pure (decide (nums[i]? = some x)) := by
  have hget := List.getElem?_eq_getElem hi
  rw [holds, nth_eq hget, pure_bind, hget]
  simp only [Option.some.injEq]

/-- An element is at one position only. -/
theorem eq_of_getElem? (hnd : nums.Nodup) (hp : nums[p]? = some x) (hi : nums[i]? = some x) :
    i = p :=
  (List.getElem?_inj (List.getElem?_eq_some_iff.mp hi).1 hnd).mp (hi.trans hp.symm)

/-- **The position of an element** is found. -/
theorem findLoop_eq (hnd : nums.Nodup) (hp : nums[p]? = some x) (hi : i ≤ p) :
    findLoop nums nums.length x i = pure (some (p : ℤ)) := by
  have hlt := (List.getElem?_eq_some_iff.mp hp).1
  obtain ⟨d, hd⟩ := Nat.exists_eq_add_of_le hi
  induction d generalizing i with
  | zero =>
    obtain rfl : p = i := hd
    rw [findLoop, if_pos (by omega), holds_eq hlt, pure_bind, decide_eq_true hp]
    rfl
  | succ d ih =>
    have hnot : nums[i]? ≠ some x := fun hnow => by
      have heq := eq_of_getElem? hnd hp hnow
      omega
    rw [findLoop, if_pos (by omega), holds_eq (by omega), pure_bind, decide_eq_false hnot,
      if_neg Bool.false_ne_true, ← Nat.cast_succ]
    exact ih (by omega) (by omega)

/-- **The last loop** finds the positions of both numbers. -/
theorem placesLoop_eq (hnd : nums.Nodup) (hp : nums[p]? = some 1)
    (hq : nums[q]? = some (nums.length : ℤ)) (hi : i ≤ nums.length) :
    placesLoop nums nums.length i oneIdx nIdx =
      pure (if i ≤ p then (p : ℤ) else oneIdx, if i ≤ q then (q : ℤ) else nIdx) := by
  have hplt := (List.getElem?_eq_some_iff.mp hp).1
  have hqlt := (List.getElem?_eq_some_iff.mp hq).1
  obtain ⟨d, hd⟩ := Nat.exists_eq_add_of_le hi
  induction d generalizing i oneIdx nIdx with
  | zero =>
    obtain rfl : nums.length = i := hd
    rw [placesLoop, if_neg (lt_irrefl _), if_neg (not_le.mpr hplt), if_neg (not_le.mpr hqlt)]
  | succ d ih =>
    have hone : nums[i]? = some 1 ↔ i = p :=
      ⟨eq_of_getElem? hnd hp, fun heq => heq ▸ hp⟩
    have hlast : nums[i]? = some (nums.length : ℤ) ↔ i = q :=
      ⟨eq_of_getElem? hnd hq, fun heq => heq ▸ hq⟩
    rw [placesLoop, if_pos (by omega), holds_eq (by omega), pure_bind, holds_eq (by omega),
      pure_bind, ← Nat.cast_succ, ih (by omega) (by omega)]
    simp only [decide_eq_true_eq, hone, hlast]
    refine congrArg pure (Prod.ext ?_ ?_)
    · dsimp only
      split_ifs <;> omega
    · dsimp only
      split_ifs <;> omega

/-! ### The program -/

section Positions

variable (hnd : nums.Nodup) (hp : nums[p]? = some 1) (hq : nums[q]? = some (nums.length : ℤ))

include hnd hp hq

/-- **The general formula** is the distance of the two numbers from their ends, if the sum it begins
with is an `int`. -/
theorem general_eq_pure {r : ℤ} : general oneIdx nIdx nums = pure r ↔
    (p : ℤ) + nums.length ≤ intMax ∧ r = distanceToEnds nums.length p q := by
  have hplt := (List.getElem?_eq_some_iff.mp hp).1
  have hqlt := (List.getElem?_eq_some_iff.mp hq).1
  have hplaces : placesLoop nums nums.length (0 : ℕ) oneIdx nIdx = _ :=
    placesLoop_eq hnd hp hq (Nat.zero_le _)
  rw [if_pos (Nat.zero_le p), if_pos (Nat.zero_le q), Nat.cast_zero] at hplaces
  rw [general, hplaces, pure_bind]
  dsimp only
  have hmin : intMin ≤ 0 := by decide
  by_cases hfits : (p : ℤ) + nums.length ≤ intMax
  · rw [int_eq (by omega) hfits, pure_bind, int_eq (by omega) (by omega), pure_bind,
      int_eq (by omega) (by omega), pure_bind, distanceToEnds]
    split_ifs with h1 h2 h2
    · rw [int_eq (by omega) (by omega), Exec.pure_inj]
      omega
    · omega
    · omega
    · rw [Exec.pure_inj]
      omega
  · rw [int, if_neg fun h => hfits h.2]
    exact iff_of_false (fun h => Exec.pure_ne_throw _ _ h.symm) fun h => hfits h.1

omit hp in
theorem last_iff : nums[nums.length - 1]? = some (nums.length : ℤ) ↔ q = nums.length - 1 :=
  ⟨fun h => (eq_of_getElem? hnd hq h).symm, fun h => h ▸ hq⟩

omit hq in
theorem first_iff : nums[0]? = some 1 ↔ p = 0 :=
  ⟨fun h => (eq_of_getElem? hnd hp h).symm, fun h => h ▸ hp⟩

theorem lastBranch_eq_pure {r : ℤ} : lastBranch oneIdx nIdx nums = pure r ↔
    (q = nums.length - 1 ∨ (p : ℤ) + nums.length ≤ intMax) ∧
      r = distanceToEnds nums.length p q := by
  have hplt := (List.getElem?_eq_some_iff.mp hp).1
  have hend : (nums.length : ℤ) - 1 = (nums.length - 1 : ℕ) := by omega
  have hfind := findLoop_eq hnd hp (Nat.zero_le _)
  rw [Nat.cast_zero] at hfind
  rw [lastBranch, hend, holds_eq (by omega), pure_bind]
  simp only [decide_eq_true_eq, last_iff hnd hq]
  by_cases hlast : q = nums.length - 1
  · rw [if_pos hlast, hfind, pure_bind, and_iff_right (.inl hlast), Exec.pure_inj, distanceToEnds,
      if_neg (by omega)]
    omega
  · rw [if_neg hlast, general_eq_pure hnd hp hq, or_iff_right hlast]

theorem firstBranch_eq_pure {r : ℤ} : firstBranch oneIdx nIdx nums = pure r ↔
    (p = 0 ∨ q = nums.length - 1 ∨ (p : ℤ) + nums.length ≤ intMax) ∧
      r = distanceToEnds nums.length p q := by
  have hplt := (List.getElem?_eq_some_iff.mp hp).1
  have hqlt := (List.getElem?_eq_some_iff.mp hq).1
  have hstart : holds nums (0 : ℕ) 1 = _ := holds_eq (by omega) 1
  have hfind := findLoop_eq hnd hq (Nat.zero_le _)
  rw [Nat.cast_zero] at hstart hfind
  rw [firstBranch, hstart, pure_bind]
  simp only [decide_eq_true_eq, first_iff hnd hp]
  by_cases hfirst : p = 0
  · rw [if_pos hfirst, hfind, pure_bind, and_iff_right (.inl hfirst), Exec.pure_inj, distanceToEnds,
      if_neg (by omega)]
    omega
  · rw [if_neg hfirst, lastBranch_eq_pure hnd hp hq, or_iff_right hfirst]

/-- **What is returned** is the distance of the two numbers from their ends. -/
theorem semiOrderedPermutation_eq_pure {r : ℤ} :
    semiOrderedPermutation oneIdx nIdx nums = pure r ↔
      (p = 0 ∨ q = nums.length - 1 ∨ (p : ℤ) + nums.length ≤ intMax) ∧
        r = distanceToEnds nums.length p q := by
  have hplt := (List.getElem?_eq_some_iff.mp hp).1
  have hend : (nums.length : ℤ) - 1 = (nums.length - 1 : ℕ) := by omega
  have hstart : holds nums (0 : ℕ) 1 = _ := holds_eq (by omega) 1
  rw [Nat.cast_zero] at hstart
  rw [semiOrderedPermutation, hstart, pure_bind, hend, holds_eq (by omega), pure_bind]
  simp only [decide_eq_true_eq, first_iff hnd hp, last_iff hnd hq]
  by_cases hboth : p = 0 ∧ q = nums.length - 1
  · rw [if_pos hboth.1, if_pos hboth.2, and_iff_right (.inl hboth.1), Exec.pure_inj,
      distanceToEnds, if_neg (by omega)]
    omega
  · rw [← firstBranch_eq_pure hnd hp hq]
    split_ifs with h1 h2
    · exact absurd ⟨h1, h2⟩ hboth
    · rfl
    · rfl

end Positions

/-! ### The least number of swaps -/

theorem IsPermutation.length_eq (h : IsPermutation nums n) : nums.length = n := by
  rw [List.Perm.length_eq h, List.length_map, List.length_range']

theorem IsPermutation.nodup (h : IsPermutation nums n) : nums.Nodup :=
  h.nodup_iff.mpr ((List.nodup_range' 1).map Nat.cast_injective)

/-- Every number from 1 to `n` has a position. -/
theorem IsPermutation.exists_position {k : ℕ} (h : IsPermutation nums n) (hk : 1 ≤ k)
    (hkn : k ≤ n) : ∃ i : ℕ, nums[i]? = some (k : ℤ) := by
  refine List.mem_iff_getElem?.mp (h.mem_iff.mpr (List.mem_map_of_mem ?_))
  rw [List.mem_range'_1]
  omega

/-- **The least number of swaps** is the distance of the two numbers from their ends. -/
theorem isLeast_distance (hn : 1 ≤ n) (h : IsPermutation nums n) (hp : nums[p]? = some 1)
    (hq : nums[q]? = some (nums.length : ℤ)) :
    IsLeast (toEnds 1 (n : ℤ) nums) (distanceToEnds nums.length p q) := by
  rw [h.length_eq] at hq
  rcases Nat.eq_or_lt_of_le hn with rfl | hlt
  · -- the first element is the last one
    obtain ⟨x, rfl⟩ := List.length_eq_one_iff.mp h.length_eq
    have hplt := (List.getElem?_eq_some_iff.mp hp).1
    have hqlt := (List.getElem?_eq_some_iff.mp hq).1
    rw [List.length_singleton] at hplt hqlt
    obtain rfl : p = 0 := by omega
    obtain rfl : q = 0 := by omega
    exact ⟨⟨[x], .done, hp, hq⟩, fun t _ => Nat.zero_le t⟩
  · exact isLeast_toEnds h.nodup (by omega) hp hq

/-- **The program returns the least number of swaps** exactly if one of the two numbers is at its
end, or the sum of the position of 1 and `n` is an `int`. -/
theorem semiOrderedPermutation_iff (hn : 1 ≤ n) (h : IsPermutation nums n) (oneIdx nIdx : ℤ) :
    (∃ t : ℕ, semiOrderedPermutation oneIdx nIdx nums = pure (t : ℤ) ∧
      IsLeast (toEnds 1 (n : ℤ) nums) t) ↔
        (nums[0]? = some 1 ∨ nums[n - 1]? = some (n : ℤ) ∨
          ∀ p : ℕ, nums[p]? = some 1 → (p : ℤ) + n ≤ intMax) := by
  obtain ⟨p, hp⟩ := h.exists_position le_rfl hn
  obtain ⟨q, hq⟩ := h.exists_position hn le_rfl
  rw [Nat.cast_one] at hp
  have hall : (∀ i : ℕ, nums[i]? = some 1 → (i : ℤ) + n ≤ intMax) ↔ (p : ℤ) + n ≤ intMax :=
    ⟨fun hall => hall p hp, fun hle i hi => eq_of_getElem? h.nodup hp hi ▸ hle⟩
  rw [← h.length_eq] at hq hall
  have hleast := isLeast_distance hn h hp hq
  have hlast := last_iff h.nodup hq
  rw [h.length_eq] at hlast hall
  rw [first_iff h.nodup hp, hlast, hall]
  constructor
  · rintro ⟨t, ht, -⟩
    have hfits := ((semiOrderedPermutation_eq_pure h.nodup hp hq).mp ht).1
    rwa [h.length_eq] at hfits
  · intro hfits
    rw [← h.length_eq] at hfits
    exact ⟨_, (semiOrderedPermutation_eq_pure h.nodup hp hq).mpr ⟨hfits, rfl⟩, hleast⟩

/-- The permutation 2, 1. -/
theorem semiOrderedPermutation_iff_two : IsPermutation [2, 1] 2 ∧
    ((∃ t : ℕ, semiOrderedPermutation 0 0 [2, 1] = pure (t : ℤ) ∧
      IsLeast (toEnds 1 ((2 : ℕ) : ℤ) [2, 1]) t) ↔
        (([2, 1] : List ℤ)[0]? = some 1 ∨ ([2, 1] : List ℤ)[2 - 1]? = some ((2 : ℕ) : ℤ) ∨
          ∀ p : ℕ, ([2, 1] : List ℤ)[p]? = some 1 → (p : ℤ) + (2 : ℕ) ≤ intMax)) := by
  have h : IsPermutation [2, 1] 2 := List.Perm.swap 1 2 []
  exact ⟨h, semiOrderedPermutation_iff (by decide) h 0 0⟩

/-- The numbers from 2 to `n + 1`, and then 1. -/
def rotated (n : ℕ) : List ℤ := (List.range' 2 n).map (fun k : ℕ => (k : ℤ)) ++ [1]

theorem isPermutation_rotated (n : ℕ) : IsPermutation (rotated n) (n + 1) := by
  rw [IsPermutation, List.range'_succ, List.map_cons, rotated]
  exact List.perm_append_singleton _ _

theorem getElem?_rotated_last (n : ℕ) : (rotated n)[n]? = some 1 := by
  rw [rotated, List.getElem?_append_right (by simp)]
  simp

theorem getElem?_rotated (n : ℕ) :
    (rotated (n + 1))[n]? = some ((rotated (n + 1)).length : ℤ) := by
  rw [rotated, List.getElem?_append_left (by simp), List.getElem?_map,
    List.getElem?_range' (Nat.lt_succ_self n)]
  simp
  ring

/-- It does not return for the numbers from 2 on, and then 1, if there are enough of them. -/
theorem not_returns_rotated (hn : intMax < 2 * (n : ℤ) + 3) (r : ℤ) :
    semiOrderedPermutation oneIdx nIdx (rotated (n + 1)) ≠ pure r := by
  intro h
  have hperm := isPermutation_rotated (n + 1)
  have hfits := ((semiOrderedPermutation_eq_pure hperm.nodup (getElem?_rotated_last (n + 1))
    (getElem?_rotated n)).mp h).1
  rw [hperm.length_eq] at hfits
  omega

/-- **It fails** on the 2^30 + 1 numbers from 2 on, with 1 at the end. -/
theorem not_semiOrderedPermutation : ¬ ∀ (n : ℕ) (nums : List ℤ) (oneIdx nIdx : ℤ), 1 ≤ n →
    IsPermutation nums n → ∃ t : ℕ, semiOrderedPermutation oneIdx nIdx nums = pure (t : ℤ) ∧
      IsLeast (toEnds 1 (n : ℤ) nums) t := by
  intro hall
  obtain ⟨t, ht, -⟩ := hall _ _ 0 0 (Nat.succ_pos _) (isPermutation_rotated (1073741823 + 1))
  exact not_returns_rotated (by rw [intMax]; norm_num) t ht

end SemiOrderedPermutation

end Candcpp
