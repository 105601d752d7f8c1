import Candcpp.Cpp.Segments
import Candcpp.Order.BinaryHeap

/-!
# Heaps in an array

The two things that a program does with a heap in an array, whatever it compares: it moves an
element down to its place, and it makes a heap of an array from behind.

A function moves elements down (`Candcpp.Cpp.SiftsDown`) if it exchanges an element with the least
of its children, goes on there, and stops as soon as no child is less. **It restores the order**,
and exchanges elements only (`Candcpp.Cpp.SiftsDown.spec`). A loop that calls it for one position
after the other, down to the root, **makes a heap of any array** if it begins late enough
(`Candcpp.Cpp.SiftsDown.build`). What is compared is the key of an element; for a maximum heap it is
in the dual order.
-/

namespace Candcpp

namespace Cpp

open BinaryHeap

variable {α τ : Type} [LinearOrder τ] {key : α → τ} {f : Arr α → ℤ → Exec (Arr α)}
  {loop : Arr α → ℤ → Exec (Arr α)} {a : Arr α} {lo i j n : ℕ}

theorem Arr.toList_swapped_perm (hi : i < a.size) (hj : j < a.size) :
    (a.swapped i j).toList.Perm a.toList :=
  map_swap_perm a.data hi hj

/-- **A function that moves an element down** to its place. -/
structure SiftsDown (key : α → τ) (f : Arr α → ℤ → Exec (Arr α)) : Prop where
  /-- An element without children stays. -/
  leaf : ∀ (a : Arr α) (i : ℕ), a.size ≤ 2 * i + 1 → f a i = pure a
  /-- Another one is exchanged with the least of its children, if that is less. -/
  node : ∀ (a : Arr α) (i : ℕ), 2 * i + 1 < a.size → ∃ c : ℕ, (c = 2 * i + 1 ∨ c = 2 * i + 2) ∧
    c < a.size ∧ (∀ c', (c' = 2 * i + 1 ∨ c' = 2 * i + 2) → c' < a.size →
      key (a.data c) ≤ key (a.data c')) ∧
    f a i = if key (a.data c) < key (a.data i) then f (a.swapped i c) c else pure a

/-- **The order is restored**, from a position on. -/
theorem SiftsDown.spec (hf : SiftsDown key f) (a : Arr α)
    (h : DownOrder lo (key ∘ a.data) a.size i) : ∃ a', f a i = pure a' ∧
      a'.toList.Perm a.toList ∧ a'.size = a.size ∧ IsHeapFrom lo (key ∘ a'.data) a'.size := by
  -- the element moves towards the end of the array
  induction hd : a.size - i using Nat.strong_induction_on generalizing a i with
  | h d ih =>
    by_cases hi : 2 * i + 1 < a.size
    · obtain ⟨c, hc, hcn, hleast, hrun⟩ := hf.node a i hi
      have hpc : parent c = i := by
        rcases hc with rfl | rfl
        · exact parent_left i
        · exact parent_right i
      have hmin := min_child (k := key ∘ a.data) hleast
      rw [hrun]
      by_cases hlt : key (a.data c) < key (a.data i)
      · rw [if_pos hlt]
        obtain ⟨a', hrun', hperm, hsize, hheap⟩ := ih (a.size - c) (by omega) (a.swapped i c)
          (h.swap (by omega) hcn hpc hmin hlt) rfl
        exact ⟨a', hrun', hperm.trans (Arr.toList_swapped_perm (by omega) hcn), hsize, hheap⟩
      · rw [if_neg hlt]
        refine ⟨a, rfl, .refl _, rfl, h.isHeapFrom fun c' hpos hc' hp => ?_⟩
        exact (not_lt.mp hlt).trans (hmin c' hpos hc' hp)
    · rw [hf.leaf a i (not_lt.mp hi)]
      refine ⟨a, rfl, .refl _, rfl, h.isHeapFrom fun c hpos hc hp => ?_⟩
      rcases eq_left_or_right hpos hp with rfl | rfl
      · exact absurd hc hi
      · exact absurd hc (by omega)

/-- **A heap is made from behind**, by a loop that begins behind all positions with children. -/
theorem SiftsDown.build (hf : SiftsDown key f)
    (hloop : ∀ a i, loop a i = if 0 ≤ i then (f a i >>= fun a => loop a (i - 1)) else pure a)
    (a : Arr α) (hn : a.size ≤ 2 * n + 1) : ∃ a', loop a ((n : ℤ) - 1) = pure a' ∧
      a'.toList.Perm a.toList ∧ IsHeap (key ∘ a'.data) a'.size := by
  have hrun : ∀ (a : Arr α) (n : ℕ), IsHeapFrom n (key ∘ a.data) a.size →
      ∃ a', loop a ((n : ℤ) - 1) = pure a' ∧ a'.toList.Perm a.toList ∧
        IsHeap (key ∘ a'.data) a'.size := by
    intro a n h
    induction n generalizing a with
    | zero =>
      rw [hloop, if_neg (by omega)]
      exact ⟨a, rfl, .refl _, h⟩
    | succ n ih =>
      obtain ⟨a', hrun, hperm, -, hheap⟩ := hf.spec a h.downOrder
      obtain ⟨a'', hrun', hperm', hheap'⟩ := ih a' hheap
      rw [hloop, if_pos (by omega), Nat.cast_succ, add_sub_cancel_right, hrun, pure_bind]
      exact ⟨a'', hrun', hperm'.trans hperm, hheap'⟩
  exact hrun a n (isHeapFrom_half hn)

/-- **The first element is taken out**: the last one is put in its place, and moves down. -/
theorem SiftsDown.pop (hf : SiftsDown key f) (h : IsHeap (key ∘ a.data) a.size)
    (hn : a.size = n + 1) : ∃ a', f ⟨Function.update a.data 0 (a.data n), n⟩ 0 = pure a' ∧
      (a.data 0 :: a'.toList).Perm a.toList ∧ IsHeap (key ∘ a'.data) a'.size := by
  have hord : DownOrder 0 (key ∘ Function.update a.data 0 (a.data n)) n 0 := by
    refine IsHeapFrom.downOrder fun c hc hcn hlo => ?_
    have hlt := parent_lt hc
    rw [Function.comp_apply, Function.comp_apply, Function.update_of_ne (by omega),
      Function.update_of_ne (by omega)]
    exact h c hc (by omega) (Nat.zero_le _)
  obtain ⟨a', hrun, hperm, -, hheap⟩ := hf.spec ⟨Function.update a.data 0 (a.data n), n⟩ hord
  refine ⟨a', hrun, (hperm.cons _).trans ?_, hheap⟩
  rw [Arr.toList, Arr.toList, hn]
  exact (map_pop_perm _ _).symm

end Cpp

end Candcpp
