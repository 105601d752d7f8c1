import Mathlib

/-!
# A list read from both ends

The elements of a list taken from its front and from its back by turns, beginning with the first
one: `Candcpp.zigzag`. They are the elements of the list (`Candcpp.zigzag_perm`); the even positions
have the elements of the front half in order (`Candcpp.getElem?_zigzag_even`), and the odd ones
those of the back half, the last one first (`Candcpp.getElem?_zigzag_odd`).
-/

namespace Candcpp

variable {α : Type}

/-- **The elements from both ends** by turns. What is left after one of them is read the other way
round. -/
def zigzag : List α → List α
  | [] => []
  | a :: l => a :: zigzag l.reverse
termination_by l => l.length
decreasing_by simp

@[simp] theorem zigzag_nil : zigzag ([] : List α) = [] := by rw [zigzag]

@[simp] theorem zigzag_singleton (a : α) : zigzag [a] = [a] := by
  rw [zigzag, List.reverse_nil, zigzag_nil]

/-- The first and the last element come first. -/
theorem zigzag_cons_append (a : α) (l : List α) (b : α) :
    zigzag (a :: (l ++ [b])) = a :: b :: zigzag l := by
  rw [zigzag, List.reverse_concat, zigzag, List.reverse_reverse]

theorem zigzag_perm (l : List α) : (zigzag l).Perm l := by
  induction l using List.bidirectionalRec with
  | nil => rw [zigzag_nil]
  | singleton a => rw [zigzag_singleton]
  | cons_append a l b ih =>
    rw [zigzag_cons_append]
    exact ((ih.cons b).trans (List.perm_append_singleton b l).symm).cons a

/-- **The even positions** have the front half. -/
theorem getElem?_zigzag_even {l : List α} {i : ℕ} (h : 2 * i < l.length) :
    (zigzag l)[2 * i]? = l[i]? := by
  induction l using List.bidirectionalRec generalizing i with
  | nil => cases h
  | singleton a =>
    obtain rfl : i = 0 := by
      rw [List.length_singleton] at h
      omega
    rw [zigzag_singleton]
  | cons_append a l b ih =>
    rw [List.length_cons, List.length_append, List.length_singleton] at h
    rw [zigzag_cons_append]
    cases i with
    | zero => rfl
    | succ i =>
      rw [show 2 * (i + 1) = 2 * i + 1 + 1 by omega, List.getElem?_cons_succ,
        List.getElem?_cons_succ, List.getElem?_cons_succ, ih (by omega),
        List.getElem?_append_left (by omega)]

/-- **The odd positions** have the back half. -/
theorem getElem?_zigzag_odd {l : List α} {i : ℕ} (h : 2 * i + 1 < l.length) :
    (zigzag l)[2 * i + 1]? = l[l.length - 1 - i]? := by
  induction l using List.bidirectionalRec generalizing i with
  | nil => cases h
  | singleton a =>
    rw [List.length_singleton] at h
    omega
  | cons_append a l b ih =>
    rw [List.length_cons, List.length_append, List.length_singleton] at h ⊢
    rw [zigzag_cons_append]
    cases i with
    | zero =>
      have hlast : (a :: (l ++ [b]))[l.length + 1]? = some b := by
        rw [List.getElem?_cons_succ, List.getElem?_concat_length]
      rw [show l.length + 1 + 1 - 1 - 0 = l.length + 1 by omega, hlast]
      rfl
    | succ i =>
      rw [show l.length + 1 + 1 - 1 - (i + 1) = l.length - 1 - i + 1 by omega,
        show 2 * (i + 1) + 1 = 2 * i + 1 + 1 + 1 by omega, List.getElem?_cons_succ,
        List.getElem?_cons_succ, List.getElem?_cons_succ, ih (by omega),
        List.getElem?_append_left (by omega)]

end Candcpp
