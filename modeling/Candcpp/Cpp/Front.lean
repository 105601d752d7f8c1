import Candcpp.Cpp.Segments

/-!
# The first elements of an array

What a program leaves behind that moves the elements it wants to the front of an array, and returns
how many there are: `Candcpp.Cpp.Arr.front`. Which ones are kept is a predicate. Where all of them
have been moved to the front, the first elements are a permutation of the elements to be kept, in
whatever way they got there; an element that is not kept is exchanged with another one
(`Candcpp.Cpp.Arr.filter_front_swapped`), or overwritten by the last of those that are left
(`Candcpp.Cpp.Arr.filter_front_overwrite`).
-/

namespace Candcpp

namespace Cpp

namespace Arr

variable {α : Type} {a a' : Arr α} {P : α → Bool} {x : α} {i k n : ℕ}

/-- The first `n` elements. -/
def front (a : Arr α) (n : ℕ) : List α := (List.range n).map a.data

@[simp] theorem front_size (a : Arr α) : a.front a.size = a.toList := rfl

@[simp] theorem length_front (a : Arr α) (n : ℕ) : (a.front n).length = n := by
  rw [front, List.length_map, List.length_range]

theorem front_succ (a : Arr α) (n : ℕ) : a.front (n + 1) = a.front n ++ [a.data n] := by
  rw [front, List.range_succ, List.map_append, List.map_singleton, front]

theorem front_sublist (h : i ≤ n) (a : Arr α) : (a.front i).Sublist (a.front n) :=
  (List.range_sublist.mpr h).map a.data

theorem getElem?_front (h : i < n) : (a.front n)[i]? = some (a.data i) := by
  rw [front, List.getElem?_map, List.getElem?_range h, Option.map_some]

theorem mem_front : x ∈ a.front n ↔ ∃ i < n, a.data i = x := by
  simp only [front, List.mem_map, List.mem_range]

/-- Of elements in order, none of the first ones is greater than the one behind them. -/
theorem le_of_pairwise_front [LE α] (h : (a.front n).Pairwise (· ≤ ·)) (hi : i < n)
    (hx : x ∈ a.front i) : x ≤ a.data i := by
  obtain ⟨k, hk, rfl⟩ := mem_front.mp hx
  rw [front, List.pairwise_map] at h
  have hle := List.pairwise_iff_getElem.mp h k i (by simpa using hk.trans hi) (by simpa using hi) hk
  rwa [List.getElem_range, List.getElem_range] at hle

/-- The first elements are what they were if none of them has been written. -/
theorem front_congr (h : ∀ i < n, a'.data i = a.data i) : a'.front n = a.front n :=
  List.map_congr_left fun i hi => h i (List.mem_range.mp hi)

/-- An element behind the first ones is written. -/
theorem front_update (h : n ≤ i) (x : α) :
    Arr.front { a with data := Function.update a.data i x } n = a.front n :=
  front_congr fun _ hj => Function.update_of_ne (by omega) _ _

/-- One of the first elements is written. -/
theorem front_update_set (h : i < n) (a : Arr α) (x : α) :
    Arr.front { a with data := Function.update a.data i x } n = (a.front n).set i x := by
  refine List.ext_getElem? fun k => ?_
  rcases Nat.lt_or_ge k n with hk | hk
  · rw [getElem?_front hk]
    rcases eq_or_ne k i with rfl | hne
    · rw [List.getElem?_set_self (by simpa using h)]
      exact congrArg some (Function.update_self _ _ _)
    · rw [List.getElem?_set_ne hne.symm, getElem?_front hk]
      exact congrArg some (Function.update_of_ne hne _ _)
  · rw [List.getElem?_eq_none (by simpa using hk), List.getElem?_eq_none (by simpa using hk)]

/-- The element behind the first ones is written. -/
theorem front_update_succ (a : Arr α) (n : ℕ) (x : α) :
    Arr.front { a with data := Function.update a.data n x } (n + 1) = a.front n ++ [x] := by
  rw [front_succ, front_update le_rfl]
  exact congrArg (a.front n ++ [·]) (Function.update_self n x a.data)

/-! ### The elements that are kept -/

/-- All of the first elements are kept. -/
theorem filter_front (h : ∀ i < n, P (a.data i)) : (a.front n).filter P = a.front n := by
  refine List.filter_eq_self.mpr fun x hx => ?_
  obtain ⟨i, hi, rfl⟩ := mem_front.mp hx
  exact h i hi

/-- **None of the elements behind the first ones** is kept. -/
theorem filter_front_eq (hkn : k ≤ n) (h : ∀ i, k ≤ i → i < n → ¬ P (a.data i)) :
    (a.front n).filter P = (a.front k).filter P := by
  obtain ⟨d, rfl⟩ := Nat.exists_eq_add_of_le hkn
  induction d with
  | zero => rfl
  | succ d ih =>
    rw [← Nat.add_assoc, front_succ, List.filter_append,
      ih (Nat.le_add_right k d) fun i hi hid => h i hi (by omega),
      List.filter_cons_of_neg (h (k + d) (Nat.le_add_right k d) (by omega)), List.filter_nil,
      List.append_nil]

/-- Two of the first elements are exchanged. -/
theorem front_swapped_perm (a : Arr α) (hi : i < n) (hk : k < n) :
    ((a.swapped i k).front n).Perm (a.front n) :=
  (Rearranged.swap (show 0 ≤ i ∧ i ≤ n - 1 by omega) (by omega)).perm (by omega)

/-- **An element that is not kept** is overwritten by the last one, which is given up. -/
theorem filter_front_overwrite (hi : i ≤ n) (h : ¬ P (a.data i)) :
    ((Arr.front { a with data := Function.update a.data i (a.data n) } n).filter P).Perm
      ((a.front (n + 1)).filter P) := by
  have hswap := (a.front_swapped_perm (n := n + 1) (i := i) (k := n) (by omega) (by omega)).filter P
  have hlast : ¬ P ((a.swapped i n).data n) := by
    rwa [data_swapped, Equiv.swap_apply_right]
  rw [filter_front_eq (Nat.le_succ n) fun j hj hjn => by rwa [show j = n by omega]] at hswap
  refine (List.Perm.of_eq ?_).trans hswap
  refine congrArg (List.filter P) (front_congr fun j hj => ?_)
  rw [data_swapped]
  rcases eq_or_ne j i with rfl | hne
  · rw [Equiv.swap_apply_left]
    exact Function.update_self _ _ _
  · rw [Equiv.swap_apply_of_ne_of_ne hne (by omega)]
    exact Function.update_of_ne hne _ _

end Arr

end Cpp

end Candcpp
