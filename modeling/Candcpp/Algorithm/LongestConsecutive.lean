import Candcpp.Cpp.Exec
import Candcpp.Order.Consecutive

/-!
# The longest run of consecutive integers

The program of `128.cpp`. All elements of a vector are put into a hash set. Then the program looks
at the elements of the set that have no predecessor in it, and counts how many integers follow each
of them without a gap. The order in which it meets the elements is not determined, and a parameter
here.

The longest run begins at one of the elements that are looked at (`Candcpp.isGreatest_lengths`). It
is counted in an `int`, so that **the program is right exactly if there are no 2^31 consecutive
integers in the vector** (`Candcpp.LongestConsecutive.longestConsecutive_iff`).
-/

namespace Candcpp

open Cpp

namespace LongestConsecutive

/-! ### The code -/

/-- `for (const int& ele : nums)`, which leaves behind `set`. -/
def insertLoop (set : Finset ℤ) : List ℤ → Finset ℤ
  | [] => set
  | ele :: nums => insertLoop (insert ele set) nums

/-- `while (set.count(ele + t))`, which leaves behind `t`. -/
def countLoop (set : Finset ℤ) (ele t : ℤ) : Exec ℤ := do
  let +zeta countLoop : type_of% countLoop := by apply countLoop
  let x ← int (ele + t)
  if x ∈ set then
    let t ← int (t + 1)
    countLoop set ele t
  else
    pure t
partial_fixpoint

/-- `for (int ele : set)`, where `order` has the elements that are still to come, which leaves
behind `ans`. -/
def eleLoop (set : Finset ℤ) (ans : ℤ) : List ℤ → Exec ℤ
  | [] => pure ans
  | ele :: order => do
    let x ← int (ele - 1)
    if x ∈ set then
      eleLoop set ans order
    else
      let t ← countLoop set ele 1
      eleLoop set (max ans t) order

/-- `longestConsecutive`. -/
def longestConsecutive (order nums : List ℤ) : Exec ℤ := eleLoop (insertLoop ∅ nums) 0 order

/-- **An order of the elements** of a set: each of them is met once. -/
structure Enumerates (order : List ℤ) (set : Finset ℤ) : Prop where
  nodup : order.Nodup
  mem_iff : ∀ x, x ∈ order ↔ x ∈ set

/-! ### The count -/

variable {set : Finset ℤ} {order nums : List ℤ} {ele r : ℤ} {ans k t : ℕ}

theorem mem_insertLoop {x : ℤ} : x ∈ insertLoop set nums ↔ x ∈ set ∨ x ∈ nums := by
  induction nums generalizing set with
  | nil => exact (or_iff_left List.not_mem_nil).symm
  | cons ele nums ih =>
    rw [insertLoop, ih, Finset.mem_insert, List.mem_cons, or_assoc, or_left_comm]

/-- All elements are strictly between the least and the greatest `int`. -/
def Inner (set : Finset ℤ) : Prop := ∀ x ∈ set, intMin < x ∧ x < intMax

/-- The integer after one of the set is an `int`. -/
theorem int_next (hin : Inner set) (hrun : Consecutive set ele k) (ht : 0 < t) (htk : t ≤ k) :
    int (ele + t) = pure (ele + t) := by
  have hprev := hin _ (hrun (t - 1) (by omega))
  rw [Nat.cast_sub ht, Nat.cast_one] at hprev
  exact int_eq (by omega) (by omega)

/-- **The loop counts a run**, if its length is an `int`. -/
theorem countLoop_eq_pure (hin : Inner set) (hrun : Run set ele k) (ht : 0 < t) (htk : t ≤ k)
    (hint : (t : ℤ) ≤ intMax) : countLoop set ele t = pure r ↔ (k : ℤ) ≤ intMax ∧ r = k := by
  rw [countLoop, int_next hin hrun.1 ht htk, pure_bind]
  obtain ⟨d, hd⟩ := Nat.exists_eq_add_of_le htk
  induction d generalizing t with
  | zero =>
    obtain rfl : k = t := hd
    rw [if_neg fun hmem => hrun.2 (Finset.mem_coe.mpr hmem), Exec.pure_inj]
    exact ⟨fun h => ⟨hint, h.symm⟩, fun h => h.2.symm⟩
  | succ d ih =>
    have hmin : intMin ≤ 0 := by decide
    rw [if_pos (Finset.mem_coe.mp (hrun.1 t (by omega)))]
    by_cases hle : (t : ℤ) + 1 ≤ intMax
    · rw [int_eq (by omega) hle, pure_bind, ← Nat.cast_succ, countLoop,
        int_next hin hrun.1 (Nat.succ_pos t) (by omega), pure_bind]
      exact ih (Nat.succ_pos t) (by omega) (by exact_mod_cast hle) (by omega)
    · rw [int, if_neg fun h => hle h.2]
      exact iff_of_false (fun h => Exec.pure_ne_throw _ _ h.symm) fun h => by omega

/-! ### The elements -/

/-- The first count. -/
theorem countLoop_one (hin : Inner set) (hele : ele ∈ set) (hrun : Run set ele k) :
    countLoop set ele 1 = pure r ↔ (k : ℤ) ≤ intMax ∧ r = k := by
  have hpos : 0 < k := Nat.pos_of_ne_zero fun hzero => hrun.2 (by simpa [hzero] using hele)
  have hone : ((1 : ℕ) : ℤ) ≤ intMax := by decide
  exact_mod_cast countLoop_eq_pure hin hrun Nat.one_pos hpos hone

/-- The integer before an element is an `int`. -/
theorem int_pred (hin : Inner set) (hele : ele ∈ set) : int (ele - 1) = pure (ele - 1) := by
  have hele := hin ele hele
  exact int_eq (by omega) (by omega)

/-- **The loop finds the longest run**, if the lengths are `int`s: `ans` is the length of one, and
no run that begins at one of the elements that are still to come is longer than what it returns. -/
theorem eleLoop_eq (hin : Inner set) (hfits : ∀ k ∈ lengths (set : Set ℤ), (k : ℤ) ≤ intMax)
    (hsub : ∀ x ∈ order, x ∈ set) (hans : ans ∈ lengths (set : Set ℤ)) :
    ∃ r : ℕ, eleLoop set ans order = pure (r : ℤ) ∧ r ∈ lengths (set : Set ℤ) ∧ ans ≤ r ∧
      ∀ y ∈ order, y - 1 ∉ set → ∀ k, Run set y k → k ≤ r := by
  induction order generalizing ans with
  | nil => exact ⟨ans, rfl, hans, le_rfl, fun y hy => absurd hy List.not_mem_nil⟩
  | cons ele order ih =>
    have hele := hsub ele List.mem_cons_self
    have hrest := fun x hx => hsub x (List.mem_cons_of_mem ele hx)
    rw [eleLoop, int_pred hin hele, pure_bind]
    by_cases hpred : ele - 1 ∈ set
    · obtain ⟨r, hr, hmem, hle, hall⟩ := ih hrest hans
      rw [if_pos hpred]
      refine ⟨r, hr, hmem, hle, List.forall_mem_cons.mpr ⟨fun hno => absurd hpred hno, hall⟩⟩
    · obtain ⟨k, hrun⟩ := exists_run set.finite_toSet ele
      have hk : k ∈ lengths (set : Set ℤ) := ⟨ele, hrun.1⟩
      have hmax : max ans k ∈ lengths (set : Set ℤ) := by
        rcases max_choice ans k with h | h <;> rwa [h]
      obtain ⟨r, hr, hmem, hle, hall⟩ := ih hrest hmax
      rw [if_neg hpred, (countLoop_one hin hele hrun).mpr ⟨hfits k hk, rfl⟩, pure_bind,
        ← Nat.cast_max]
      refine ⟨r, hr, hmem, (le_max_left _ _).trans hle,
        List.forall_mem_cons.mpr ⟨fun _ m hm => ?_, hall⟩⟩
      exact (hrun.le hm.1).trans ((le_max_right _ _).trans hle)

/-- **If it returns**, the length of every run that begins at one of the elements is an `int`. -/
theorem le_intMax_of_eleLoop {a : ℤ} (hin : Inner set) (hsub : ∀ x ∈ order, x ∈ set)
    (h : eleLoop set a order = pure r) :
    ∀ y ∈ order, y - 1 ∉ set → ∀ k, Run set y k → (k : ℤ) ≤ intMax := by
  induction order generalizing a with
  | nil => exact fun y hy => absurd hy List.not_mem_nil
  | cons ele order ih =>
    have hele := hsub ele List.mem_cons_self
    have hrest := fun x hx => hsub x (List.mem_cons_of_mem ele hx)
    rw [eleLoop, int_pred hin hele, pure_bind] at h
    split_ifs at h with hpred
    · exact List.forall_mem_cons.mpr ⟨fun hno => absurd hpred hno, ih hrest h⟩
    · obtain ⟨t, ht, h⟩ := Exec.bind_eq_pure.mp h
      exact List.forall_mem_cons.mpr
        ⟨fun _ k hrun => ((countLoop_one hin hele hrun).mp ht).1, ih hrest h⟩

/-! ### The program -/

theorem coe_insertLoop (nums : List ℤ) : (insertLoop ∅ nums : Set ℤ) = {x | x ∈ nums} := by
  ext x
  rw [Finset.mem_coe, mem_insertLoop, Set.mem_ofPred_eq]
  exact or_iff_right (Finset.notMem_empty x)

theorem inner_insertLoop (h : ∀ x ∈ nums, intMin < x ∧ x < intMax) : Inner (insertLoop ∅ nums) := by
  intro x hx
  rw [← Finset.mem_coe, coe_insertLoop] at hx
  exact h x hx

/-- **It does not return** where there are 2^31 consecutive integers. -/
theorem not_mem_of_returns (h : ∀ x ∈ nums, intMin < x ∧ x < intMax)
    (horder : Enumerates order (insertLoop ∅ nums))
    (hrun : longestConsecutive order nums = pure r) :
    2 ^ 31 ∉ lengths {x | x ∈ nums} := by
  rintro ⟨x, hx⟩
  rw [← coe_insertLoop] at hx
  obtain ⟨y, m, hy, hpred, hle, hm⟩ := hx.exists_start (Finset.finite_toSet _) (by norm_num)
  obtain ⟨k, hk⟩ := exists_run (Finset.finite_toSet _) y
  have hint := le_intMax_of_eleLoop (inner_insertLoop h) (fun x => (horder.mem_iff x).mp) hrun y
    ((horder.mem_iff y).mpr hy) hpred k hk
  have hmk := hk.le hm
  rw [intMax] at hint
  omega

/-- **The length of the longest run** is returned, for every order in which the elements are met,
exactly if there are no 2^31 consecutive integers. -/
theorem longestConsecutive_iff (h : ∀ x ∈ nums, intMin < x ∧ x < intMax)
    (horder : Enumerates order (insertLoop ∅ nums)) :
    (∃ r : ℕ, longestConsecutive order nums = pure (r : ℤ) ∧
      IsGreatest (lengths {x | x ∈ nums}) r) ↔ 2 ^ 31 ∉ lengths {x | x ∈ nums} := by
  constructor
  · rintro ⟨r, hr, -⟩
    exact not_mem_of_returns h horder hr
  · intro hno
    have hfits : ∀ k ∈ lengths (insertLoop ∅ nums : Set ℤ), (k : ℤ) ≤ intMax := by
      rintro k ⟨x, hx⟩
      rw [coe_insertLoop] at hx
      by_contra hlt
      rw [intMax] at hlt
      exact hno ⟨x, hx.mono (by omega)⟩
    obtain ⟨r, hr, hmem, -, hall⟩ := eleLoop_eq (inner_insertLoop h) hfits
      (fun x => (horder.mem_iff x).mp) ⟨0, consecutive_zero _ 0⟩
    rw [← coe_insertLoop]
    exact ⟨r, hr, isGreatest_lengths (Finset.finite_toSet _) hmem fun y hy =>
      hall y ((horder.mem_iff y).mpr hy)⟩

/-- The vector of the elements 3, 1, 2 and 1, of which 2 is met first. -/
theorem longestConsecutive_iff_three : Enumerates [2, 3, 1] (insertLoop ∅ [3, 1, 2, 1]) ∧
    ((∃ r : ℕ, longestConsecutive [2, 3, 1] [3, 1, 2, 1] = pure (r : ℤ) ∧
      IsGreatest (lengths {x | x ∈ [3, 1, 2, 1]}) r) ↔
        2 ^ 31 ∉ lengths {x | x ∈ [3, 1, 2, 1]}) := by
  have horder : Enumerates [2, 3, 1] (insertLoop ∅ [3, 1, 2, 1]) := by
    refine ⟨by decide, fun x => ?_⟩
    rw [mem_insertLoop, or_iff_right (Finset.notMem_empty x)]
    simp only [List.mem_cons, List.not_mem_nil, or_false]
    tauto
  exact ⟨horder, longestConsecutive_iff (by decide) horder⟩

/-- `n` consecutive integers. -/
def consecutiveInts (n : ℕ) : List ℤ := (List.range n).map fun i : ℕ => -2 ^ 30 + (i : ℤ)

theorem mem_consecutiveInts {n : ℕ} {x : ℤ} :
    x ∈ consecutiveInts n ↔ -2 ^ 30 ≤ x ∧ x < -2 ^ 30 + n := by
  rw [consecutiveInts, List.mem_map]
  simp only [List.mem_range]
  constructor
  · rintro ⟨i, hi, rfl⟩
    omega
  · rintro ⟨hle, hlt⟩
    exact ⟨(x + 2 ^ 30).toNat, by omega, by omega⟩

theorem nodup_consecutiveInts (n : ℕ) : (consecutiveInts n).Nodup :=
  List.nodup_range.map fun _ _ hij => Nat.cast_injective (add_left_cancel hij)

theorem mem_lengths_consecutiveInts (n : ℕ) : n ∈ lengths {x | x ∈ consecutiveInts n} := by
  refine ⟨-2 ^ 30, fun i hi => mem_consecutiveInts.mpr ⟨?_, ?_⟩⟩
  · omega
  · exact Int.add_lt_add_left (Int.ofNat_lt.mpr hi) _

/-- **It fails** on the vector of 2^31 consecutive integers. -/
theorem not_longestConsecutive : ¬ ∀ nums order : List ℤ,
    (∀ x ∈ nums, intMin < x ∧ x < intMax) → Enumerates order (insertLoop ∅ nums) →
      ∃ r : ℕ, longestConsecutive order nums = pure (r : ℤ) ∧
        IsGreatest (lengths {x | x ∈ nums}) r := by
  intro hall
  have hrange : ∀ x ∈ consecutiveInts (2 ^ 31), intMin < x ∧ x < intMax := by
    intro x hx
    obtain ⟨hle, hlt⟩ := mem_consecutiveInts.mp hx
    rw [intMin, intMax]
    norm_num at hle hlt
    omega
  have horder : Enumerates (consecutiveInts (2 ^ 31)) (insertLoop ∅ (consecutiveInts (2 ^ 31))) :=
    ⟨nodup_consecutiveInts _, fun x => by
      rw [mem_insertLoop, or_iff_right (Finset.notMem_empty x)]⟩
  obtain ⟨r, hr, -⟩ := hall _ _ hrange horder
  exact not_mem_of_returns hrange horder hr (mem_lengths_consecutiveInts _)

end LongestConsecutive

end Candcpp
