import Candcpp.Cpp.Exec
import Candcpp.Order.Rearranged

/-!
# Sorting a part of an array

The part of an array between two positions, both of them included (`Candcpp.Cpp.Arr.segment`), and
what it means that a program sorts it and leaves the others alone (`Candcpp.Cpp.Arr.Sorts`). **An
array can be sorted in one way only** (`Candcpp.Cpp.Arr.Sorts.unique`).

Two elements are exchanged by way of a third variable (`Candcpp.Cpp.Arr.exchange`); this is a
rearrangement in the sense of `Candcpp.Rearranged`, and where a program makes no other writes it
only has to be shown that the elements are in order in the end
(`Candcpp.Cpp.Arr.Sorts.of_rearranged`).
-/

namespace Candcpp

namespace Cpp

namespace Arr

variable {α : Type} {a a' a'' : Arr α} {i j l m r n : ℕ}

/-! ### Exchanging two elements -/

/-- `T t = a[i]; a[i] = a[j]; a[j] = t`. -/
def exchange (a : Arr α) (i j : ℤ) : Exec (Arr α) := do
  let t ← a.getInt i
  let x ← a.getInt j
  let a ← a.putInt i x
  a.putInt j t

/-- The array after two elements have been exchanged. -/
def swapped (a : Arr α) (i j : ℕ) : Arr α where
  data := a.data ∘ Equiv.swap i j
  size := a.size

@[simp] theorem data_swapped (a : Arr α) (i j k : ℕ) :
    (a.swapped i j).data k = a.data (Equiv.swap i j k) := rfl

theorem exchange_eq (hi : i < a.size) (hj : j < a.size) :
    a.exchange i j = pure (a.swapped i j) := by
  have hj' : j < (Arr.mk (Function.update a.data i (a.data j)) a.size).size := hj
  rw [exchange, getInt_eq hi, pure_bind, getInt_eq hj, pure_bind, putInt_eq hi, pure_bind,
    putInt_eq hj']
  refine congrArg pure (congrArg (Arr.mk · a.size) ?_)
  rw [Equiv.swap_comm, Equiv.comp_swap_eq_update]

/-! ### The part between two positions -/

/-- The elements from the position `left` to the position `right`. -/
def segment (a : Arr α) (left right : ℤ) : List α :=
  (List.range' left.toNat (right + 1 - left).toNat).map a.data

theorem segment_eq (a : Arr α) (h : l + n = r + 1) :
    a.segment l r = (List.range' l n).map a.data := by
  rw [segment, Int.toNat_natCast, show ((r : ℤ) + 1 - l).toNat = n by omega]

/-- There is at most one element. -/
theorem exists_segment_eq {left right : ℤ} (h : right ≤ left) (a : Arr α) :
    a.segment left right = [] ∨ a.segment left right = [a.data left.toNat] := by
  rcases (show (right + 1 - left).toNat = 0 ∨ (right + 1 - left).toNat = 1 by omega) with hn | hn
  · exact .inl (by rw [segment, hn]; rfl)
  · exact .inr (by rw [segment, hn]; rfl)

theorem segment_of_lt (h : r < l) (a : Arr α) : a.segment l r = [] := by
  rw [segment, show ((r : ℤ) + 1 - l).toNat = 0 by omega]
  rfl

/-- The first element of a segment. -/
theorem segment_cons (h : l ≤ r) (a : Arr α) :
    a.segment l r = a.data l :: a.segment (l + 1 : ℕ) r := by
  rw [a.segment_eq (n := r - l + 1) (by omega), a.segment_eq (n := r - l) (by omega),
    List.range'_succ, List.map_cons]

/-- Two segments that meet. -/
theorem segment_append (hlm : l ≤ m + 1) (hmr : m ≤ r) (a : Arr α) :
    a.segment l m ++ a.segment (m + 1 : ℕ) r = a.segment l r := by
  rw [a.segment_eq (n := m + 1 - l) (by omega), a.segment_eq (n := r - m) (by omega),
    a.segment_eq (n := (m + 1 - l) + (r - m)) (by omega), ← List.map_append,
    ← List.range'_append_1, show l + (m + 1 - l) = m + 1 by omega]

/-- A segment is what it was if its elements are. -/
theorem segment_congr (h : ∀ k, l ≤ k → k ≤ r → a'.data k = a.data k) :
    a'.segment l r = a.segment l r := by
  refine List.map_congr_left fun k hk => ?_
  rw [List.mem_range'_1] at hk
  exact h k (by omega) (by omega)

/-! ### Sorting it -/

variable [LinearOrder α] {left right : ℤ}

/-- **The part of an array between two positions has been sorted**: it is in order, it is a
permutation of what it was, and the other elements are what they were. -/
structure Sorts (left right : ℤ) (a a' : Arr α) : Prop where
  size_eq : a'.size = a.size
  pairwise : (a'.segment left right).Pairwise (· ≤ ·)
  perm : (a'.segment left right).Perm (a.segment left right)
  outside : ∀ k : ℕ, (k : ℤ) < left ∨ right < k → a'.data k = a.data k

namespace Sorts

/-- **Sorting has one result.** -/
theorem unique (h : Sorts left right a a') (h' : Sorts left right a a'') : a' = a'' := by
  have heq := (h.perm.trans h'.perm.symm).eq_of_pairwise' h.pairwise h'.pairwise
  ext k
  · by_cases hk : (k : ℤ) < left ∨ right < k
    · rw [h.outside k hk, h'.outside k hk]
    · exact List.map_inj_left.mp heq k (List.mem_range'_1.mpr (by omega))
  · exact h.size_eq.trans h'.size_eq.symm

/-- There is nothing to sort. -/
theorem refl (h : right ≤ left) (a : Arr α) : Sorts left right a a := by
  refine ⟨rfl, ?_, .refl _, fun _ _ => rfl⟩
  rcases exists_segment_eq h a with hs | hs
  · exact hs ▸ .nil
  · exact hs ▸ List.pairwise_singleton _ _

/-- The elements have been exchanged with each other, and are in order. -/
theorem of_rearranged (hlr : l ≤ r) (hsize : a'.size = a.size)
    (hr : Rearranged l r a.data a'.data)
    (hs : ∀ i j, l ≤ i → i ≤ j → j ≤ r → a'.data i ≤ a'.data j) : Sorts l r a a' where
  size_eq := hsize
  pairwise := by
    rw [a'.segment_eq (n := r + 1 - l) (by omega), List.pairwise_map]
    refine (List.pairwise_lt_range' 1).imp_of_mem fun {i j} hi hj hij => ?_
    rw [List.mem_range'_1] at hi hj
    exact hs i j hi.1 hij.le (by omega)
  perm := by
    rw [a'.segment_eq (n := r + 1 - l) (by omega), a.segment_eq (n := r + 1 - l) (by omega)]
    exact hr.perm_range' le_rfl (by omega)
  outside := fun k hk => hr.outside (by omega)

end Sorts

end Arr

end Cpp

end Candcpp
