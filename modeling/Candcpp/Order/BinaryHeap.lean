import Candcpp.Order.Rearranged
import Mathlib

/-!
# Binary heaps

The order of a binary heap, on a sequence of keys `k : ℕ → τ` of which the first `n`
count: the children of the position `i` are `2 * i + 1` and `2 * i + 2`, and no key is
below that of its parent (`Candcpp.BinaryHeap.IsHeap`).

An element that is out of place travels to its place along one path, and on the way
the order is broken at one position only. There are two ways to be out of place, and
each comes with the same two rules: one more exchange keeps the break at one position,
and where the element may stay the order is whole.

| the element moves | broken order | an exchange | the end |
|---|---|---|---|
| up | `UpOrder` | `Candcpp.BinaryHeap.UpOrder.swap` | `Candcpp.BinaryHeap.UpOrder.isHeap` |
| down | `DownOrder` | `Candcpp.BinaryHeap.DownOrder.swap` | `Candcpp.BinaryHeap.DownOrder.isHeapFrom` |

An algorithm that moves a *hole* and writes the element once, at the end, does the same
exchanges on the sequence in which the hole is already filled
(`Candcpp.BinaryHeap.update_hole`), and an exchange rearranges the sequence
(`Candcpp.BinaryHeap.map_swap_perm`).
-/

namespace Candcpp

namespace BinaryHeap

/-! ### Positions -/

/-- The parent of a position. -/
def parent (i : ℕ) : ℕ := (i - 1) / 2

theorem parent_lt {i : ℕ} (h : 0 < i) : parent i < i := by
  rw [parent]
  omega

theorem parent_left (i : ℕ) : parent (2 * i + 1) = i := by
  rw [parent]
  omega

theorem parent_right (i : ℕ) : parent (2 * i + 2) = i := by
  rw [parent]
  omega

/-- A position has two children. -/
theorem eq_left_or_right {i c : ℕ} (hc : 0 < c) (h : parent c = i) :
    c = 2 * i + 1 ∨ c = 2 * i + 2 := by
  rw [parent] at h
  omega

variable {τ : Type} [LinearOrder τ] {k k' : ℕ → τ} {n lo i c hole : ℕ}

/-! ### The order -/

/-- **The order of a heap, from a position on**: no key at a position below `n` is below
that of its parent, if the parent is not before `lo`. -/
def IsHeapFrom (lo : ℕ) (k : ℕ → τ) (n : ℕ) : Prop :=
  ∀ c, 0 < c → c < n → lo ≤ parent c → k (parent c) ≤ k c

/-- **The order of a heap**. -/
def IsHeap (k : ℕ → τ) (n : ℕ) : Prop := IsHeapFrom 0 k n

/-- The order of a heap, at the two children of each position. -/
theorem isHeap_iff : IsHeap k n ↔
    ∀ i, (2 * i + 1 < n → k i ≤ k (2 * i + 1)) ∧ (2 * i + 2 < n → k i ≤ k (2 * i + 2)) := by
  constructor
  · intro h i
    constructor
    · intro hn
      have hle := h (2 * i + 1) (Nat.succ_pos _) hn (Nat.zero_le _)
      rwa [parent_left] at hle
    · intro hn
      have hle := h (2 * i + 2) (Nat.succ_pos _) hn (Nat.zero_le _)
      rwa [parent_right] at hle
  · intro h c hc hn _
    obtain ⟨i, hi⟩ : ∃ i, parent c = i := ⟨_, rfl⟩
    rw [hi]
    rcases eq_left_or_right hc hi with rfl | rfl
    · exact (h i).1 hn
    · exact (h i).2 hn

/-- The root has the least key. -/
theorem IsHeap.root_le (h : IsHeap k n) (hi : i < n) : k 0 ≤ k i := by
  induction i using Nat.strong_induction_on with
  | h i ih =>
    rcases Nat.eq_zero_or_pos i with rfl | hpos
    · exact le_rfl
    · have hlt := parent_lt hpos
      exact (ih _ hlt (hlt.trans hi)).trans (h i hpos hi (Nat.zero_le _))

/-- The order depends on the keys below `n` only. -/
theorem IsHeapFrom.congr (h : IsHeapFrom lo k n) (hk : ∀ i, lo ≤ i → i < n → k' i = k i) :
    IsHeapFrom lo k' n := by
  intro c hc hn hlo
  have hlt := parent_lt hc
  rw [hk _ hlo (hlt.trans hn), hk c (hlo.trans hlt.le) hn]
  exact h c hc hn hlo

/-- From half of the positions on there are no children. -/
theorem isHeapFrom_half (h : n ≤ 2 * lo + 1) : IsHeapFrom lo k n := by
  intro c hc hn hlo
  rw [parent] at hlo
  omega

/-! ### Exchanges -/

/-- **The hole and the element**: moving an element `y` into the hole and the hole to its
place is an exchange on the sequence in which the hole is filled by `x`. -/
theorem update_hole {α : Type} (d : ℕ → α) (x : α) {i j : ℕ} (h : i ≠ j) :
    Function.update (Function.update d i (d j)) j x =
      Function.update d i x ∘ Equiv.swap i j := by
  funext b
  rw [Function.comp_apply]
  by_cases hj : b = j
  · subst hj
    rw [Equiv.swap_apply_right, Function.update_self, Function.update_self]
  · by_cases hi : b = i
    · subst hi
      rw [Equiv.swap_apply_left, Function.update_of_ne hj, Function.update_self,
        Function.update_of_ne h.symm]
    · rw [Equiv.swap_apply_of_ne_of_ne hi hj, Function.update_of_ne hj, Function.update_of_ne hi,
        Function.update_of_ne hi]

/-- An exchange rearranges the first `n` elements. -/
theorem map_swap_perm {α : Type} (d : ℕ → α) {i j : ℕ} (hi : i < n) (hj : j < n) :
    ((List.range n).map (d ∘ Equiv.swap i j)).Perm ((List.range n).map d) := by
  have hr : Rearranged 0 (n - 1) d (d ∘ Equiv.swap i j) := .swap (by omega) (by omega)
  exact hr.perm (by omega)

/-- A new element is put at the end. -/
theorem map_push {α : Type} (d : ℕ → α) (x : α) (n : ℕ) :
    (List.range (n + 1)).map (Function.update d n x) = (List.range n).map d ++ [x] := by
  rw [List.range_succ, List.map_append, List.map_singleton, Function.update_self]
  refine congrArg (· ++ [x]) (List.map_congr_left fun i hi => ?_)
  exact Function.update_of_ne (List.mem_range.mp hi).ne _ _

/-- The first element is taken out, and the last one put in its place. -/
theorem map_pop_perm {α : Type} (d : ℕ → α) (n : ℕ) :
    ((List.range (n + 1)).map d).Perm
      (d 0 :: (List.range n).map (Function.update d 0 (d n))) := by
  rw [List.range_succ_eq_map, List.map_cons, List.map_map]
  refine List.Perm.cons _ ?_
  rcases n with _ | n
  · rfl
  · have htail : (List.range n).map (Function.update d 0 (d (n + 1)) ∘ Nat.succ) =
        (List.range n).map (d ∘ Nat.succ) :=
      List.map_congr_left fun i _ => Function.update_of_ne (Nat.succ_ne_zero i) _ _
    have hlast : (List.range (n + 1)).map (d ∘ Nat.succ) =
        (List.range n).map (d ∘ Nat.succ) ++ [d (n + 1)] := by
      rw [List.range_succ, List.map_append, List.map_singleton]
      rfl
    rw [hlast, List.range_succ_eq_map, List.map_cons, List.map_map, htail, Function.update_self]
    exact List.perm_append_singleton _ _

/-! ### Moving up -/

/-- **The order but for the key at `hole`**, which may be below that of its parent: the
children of `hole` are in order with its parent. -/
structure UpOrder (k : ℕ → τ) (n hole : ℕ) : Prop where
  except : ∀ c, 0 < c → c < n → c ≠ hole → k (parent c) ≤ k c
  grand : 0 < hole → ∀ c, 0 < c → c < n → parent c = hole → k (parent hole) ≤ k c

/-- A new element at the end may be below its parent. -/
theorem IsHeap.push (h : IsHeap k n) (hk : ∀ i, i < n → k' i = k i) : UpOrder k' (n + 1) n where
  except := by
    intro c hc hn hne
    have hcn : c < n := by omega
    rw [hk _ ((parent_lt hc).trans hcn), hk c hcn]
    exact h c hc hcn (Nat.zero_le _)
  grand := by
    intro _ c hc hn hp
    have hlt := parent_lt hc
    omega

/-- **An exchange with the parent** moves the break up. -/
theorem UpOrder.swap (h : UpOrder k n hole) (hpos : 0 < hole) (hn : hole < n)
    (hlt : k hole < k (parent hole)) :
    UpOrder (k ∘ Equiv.swap hole (parent hole)) n (parent hole) := by
  have hp := parent_lt hpos
  -- the keys of the sequence after the exchange
  have hhole : (k ∘ Equiv.swap hole (parent hole)) hole = k (parent hole) := by simp
  have hpar : (k ∘ Equiv.swap hole (parent hole)) (parent hole) = k hole := by simp
  have hother : ∀ b, b ≠ hole → b ≠ parent hole →
      (k ∘ Equiv.swap hole (parent hole)) b = k b := fun b h₁ h₂ => by
    rw [Function.comp_apply, Equiv.swap_apply_of_ne_of_ne h₁ h₂]
  constructor
  · intro c hc hcn hne
    by_cases hch : c = hole
    · subst hch
      rw [hhole, hpar]
      exact hlt.le
    · rw [hother c hch hne]
      by_cases hph : parent c = hole
      · rw [hph, hhole]
        exact h.grand hpos c hc hcn hph
      · by_cases hpp : parent c = parent hole
        · rw [hpp, hpar]
          refine hlt.le.trans ?_
          rw [← hpp]
          exact h.except c hc hcn hch
        · rw [hother _ hph hpp]
          exact h.except c hc hcn hch
  · intro hpos' c hc hcn hcp
    have hpp := parent_lt hpos'
    have hup : k (parent (parent hole)) ≤ k (parent hole) :=
      h.except _ hpos' (hp.trans hn) hp.ne
    rw [hother _ (by omega) hpp.ne]
    by_cases hch : c = hole
    · subst hch
      rw [hhole]
      exact hup
    · have hne : c ≠ parent hole := by
        rintro rfl
        omega
      rw [hother c hch hne]
      refine hup.trans ?_
      rw [← hcp]
      exact h.except c hc hcn hch

/-- **The element may stay** at the root, or above a parent that is not above it. -/
theorem UpOrder.isHeap (h : UpOrder k n hole) (hstop : 0 < hole → k (parent hole) ≤ k hole) :
    IsHeap k n := by
  intro c hc hcn _
  by_cases hch : c = hole
  · subst hch
    exact hstop hc
  · exact h.except c hc hcn hch

/-! ### Moving down -/

/-- **The order from a position on, but for the key at `hole`**, which may be above those
of its children: these are in order with the parent of `hole`. -/
structure DownOrder (lo : ℕ) (k : ℕ → τ) (n hole : ℕ) : Prop where
  from_le : lo ≤ hole
  except : ∀ c, 0 < c → c < n → lo ≤ parent c → parent c ≠ hole → k (parent c) ≤ k c
  grand : 0 < hole → lo ≤ parent hole → ∀ c, 0 < c → c < n → parent c = hole →
    k (parent hole) ≤ k c

/-- The position before those that are in order may be out of place. -/
theorem IsHeapFrom.downOrder (h : IsHeapFrom (lo + 1) k n) : DownOrder lo k n lo where
  from_le := le_rfl
  except := by
    intro c hc hn hlo hne
    exact h c hc hn (by omega)
  grand := by
    intro hpos hle
    have hlt := parent_lt hpos
    omega

/-- **An exchange with the least child** moves the break down. -/
theorem DownOrder.swap (h : DownOrder lo k n hole) (hc : 0 < c) (hcn : c < n)
    (hp : parent c = hole)
    (hmin : ∀ c', 0 < c' → c' < n → parent c' = hole → k c ≤ k c') (hlt : k c < k hole) :
    DownOrder lo (k ∘ Equiv.swap hole c) n c := by
  have hhc : hole < c := hp ▸ parent_lt hc
  have hhole : (k ∘ Equiv.swap hole c) hole = k c := by simp
  have hchild : (k ∘ Equiv.swap hole c) c = k hole := by simp
  have hother : ∀ b, b ≠ hole → b ≠ c → (k ∘ Equiv.swap hole c) b = k b := fun b h₁ h₂ => by
    rw [Function.comp_apply, Equiv.swap_apply_of_ne_of_ne h₁ h₂]
  refine ⟨h.from_le.trans hhc.le, fun b hb hbn hlo hne => ?_, fun _ _ b hb hbn hbc => ?_⟩
  · have hlt' := parent_lt hb
    by_cases hbc : b = c
    · subst hbc
      rw [hp, hhole, hchild]
      exact hlt.le
    · by_cases hbh : b = hole
      · subst hbh
        rw [hhole, hother _ hlt'.ne hne]
        exact h.grand hb hlo c hc hcn hp
      · rw [hother b hbh hbc]
        by_cases hpb : parent b = hole
        · rw [hpb, hhole]
          exact hmin b hb hbn hpb
        · rw [hother _ hpb hne]
          exact h.except b hb hbn hlo hpb
  · have hcb : c < b := hbc ▸ parent_lt hb
    rw [hp, hhole, hother b (by omega) hcb.ne']
    have hex := h.except b hb hbn (by rw [hbc]; exact h.from_le.trans hhc.le) (by omega)
    rwa [hbc] at hex

/-- **The element may stay** above children that are not below it. -/
theorem DownOrder.isHeapFrom (h : DownOrder lo k n hole)
    (hstop : ∀ c, 0 < c → c < n → parent c = hole → k hole ≤ k c) : IsHeapFrom lo k n := by
  intro c hc hcn hlo
  by_cases hch : parent c = hole
  · rw [hch]
    exact hstop c hc hcn hch
  · exact h.except c hc hcn hlo hch

/-- The least child is one of two, and the second one may not exist. -/
theorem min_child (hmin : ∀ c', (c' = 2 * hole + 1 ∨ c' = 2 * hole + 2) → c' < n → k c ≤ k c') :
    ∀ c', 0 < c' → c' < n → parent c' = hole → k c ≤ k c' :=
  fun c' hpos hn hp => hmin c' (eq_left_or_right hpos hp) hn

end BinaryHeap

end Candcpp
