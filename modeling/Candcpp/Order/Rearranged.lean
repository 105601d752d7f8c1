import Mathlib.Logic.Equiv.Basic
import Mathlib.Data.List.Nodup
import Mathlib.Data.List.Range
import Mathlib.Data.List.Perm.Basic
import Mathlib.Order.Basic
import Mathlib.Order.Interval.Finset.Nat

/-!
# Sorting by selection

What a sorting algorithm does that fixes one position after the other. The elements from some
position on are exchanged with each other (`Candcpp.Rearranged`), until the least of them is the
first; then that position is as it will stay, and the order reaches one position further
(`Candcpp.SortedTo.extend`). Where it reaches all positions but the last one, the sequence is sorted
(`Candcpp.SortedTo.pairwise`), and it is a permutation of what it was (`Candcpp.Rearranged.perm`).
The same goes for one that brings the greatest element to the end
(`Candcpp.SortedFrom.extend`).

A sequence is a function on the positions, of which the first `n` matter.
-/

namespace Candcpp

variable {α : Type} {d d' d'' : ℕ → α} {lo lo' hi hi' n i j k : ℕ}

/-! ### Rearrangements -/

/-- The elements at the positions from `lo` to `hi` have been exchanged with each other. -/
def Rearranged (lo hi : ℕ) (d d' : ℕ → α) : Prop :=
  ∃ σ : Equiv.Perm ℕ, (∀ k, k < lo ∨ hi < k → σ k = k) ∧ d' = d ∘ σ

namespace Rearranged

theorem refl (lo hi : ℕ) (d : ℕ → α) : Rearranged lo hi d d := ⟨Equiv.refl ℕ, fun _ _ => rfl, rfl⟩

theorem trans (h : Rearranged lo hi d d') (h' : Rearranged lo hi d' d'') :
    Rearranged lo hi d d'' := by
  obtain ⟨σ, hσ, rfl⟩ := h
  obtain ⟨τ, hτ, rfl⟩ := h'
  exact ⟨τ.trans σ, fun k hk => by rw [Equiv.trans_apply, hτ k hk, hσ k hk], rfl⟩

theorem symm (h : Rearranged lo hi d d') : Rearranged lo hi d' d := by
  obtain ⟨σ, hσ, rfl⟩ := h
  refine ⟨σ.symm, fun k hk => σ.symm_apply_eq.mpr (hσ k hk).symm, ?_⟩
  ext k
  exact congrArg d (σ.apply_symm_apply k).symm

theorem mono (h : Rearranged lo hi d d') (hlo : lo' ≤ lo) (hhi : hi ≤ hi') :
    Rearranged lo' hi' d d' := by
  obtain ⟨σ, hσ, rfl⟩ := h
  exact ⟨σ, fun k hk => hσ k (by omega), rfl⟩

/-- A single exchange. -/
theorem swap (hi₀ : lo ≤ i ∧ i ≤ hi) (hj : lo ≤ j ∧ j ≤ hi) :
    Rearranged lo hi d (d ∘ Equiv.swap i j) := by
  refine ⟨Equiv.swap i j, fun k hk => ?_, rfl⟩
  exact Equiv.swap_apply_of_ne_of_ne (by omega) (by omega)

/-- The other elements are where they were. -/
theorem outside (h : Rearranged lo hi d d') (hk : k < lo ∨ hi < k) : d' k = d k := by
  obtain ⟨σ, hσ, rfl⟩ := h
  rw [Function.comp_apply, hσ k hk]

/-- An element comes from one of the positions. -/
theorem exists_eq (h : Rearranged lo hi d d') (hk : lo ≤ k ∧ k ≤ hi) :
    ∃ m, (lo ≤ m ∧ m ≤ hi) ∧ d' k = d m := by
  obtain ⟨σ, hσ, rfl⟩ := h
  refine ⟨σ k, ?_, rfl⟩
  by_contra hout
  -- what is outside is fixed, and so it is no other position that is taken there
  have hfix : σ (σ k) = σ k := hσ _ (by omega)
  rw [σ.injective hfix] at hout
  exact hout hk

/-- **What holds of all elements between the two places** still does. -/
theorem all (h : Rearranged lo hi d d') {P : α → Prop} (hP : ∀ k, lo ≤ k → k ≤ hi → P (d k))
    (hlo : lo ≤ k) (hhi : k ≤ hi) : P (d' k) := by
  obtain ⟨m, hm, heq⟩ := h.exists_eq ⟨hlo, hhi⟩
  rw [heq]
  exact hP m hm.1 hm.2

/-- Where there is at most one position, nothing is exchanged. -/
theorem eq_of_le (h : Rearranged lo hi d d') (hle : hi ≤ lo) : d' = d := by
  funext k
  by_cases hk : k < lo ∨ hi < k
  · exact h.outside hk
  · obtain ⟨m, hm, heq⟩ := h.exists_eq (k := k) (by omega)
    rw [heq, show m = k by omega]

/-- **The elements of a larger range are a permutation** of what they were. -/
theorem perm_range' (h : Rearranged lo hi d d') (hi₀ : i ≤ lo) (hn : hi < i + n) :
    ((List.range' i n).map d').Perm ((List.range' i n).map d) := by
  obtain ⟨σ, hσ, rfl⟩ := h
  have hmem : ∀ k, (i ≤ σ k ∧ σ k < i + n) ↔ (i ≤ k ∧ k < i + n) := by
    intro k
    by_cases hk : k < lo ∨ hi < k
    · rw [hσ k hk]
    · refine iff_of_true ?_ (by omega)
      by_contra hout
      have hfix : σ (σ k) = σ k := hσ _ (by omega)
      rw [σ.injective hfix] at hout
      omega
  rw [← List.map_map]
  refine List.Perm.map d ((List.perm_ext_iff_of_nodup ?_ (List.nodup_range' 1)).mpr fun a => ?_)
  · exact (List.nodup_range' 1).map σ.injective
  · rw [List.mem_map, List.mem_range'_1]
    constructor
    · rintro ⟨b, hb, rfl⟩
      exact (hmem b).mpr (List.mem_range'_1.mp hb)
    · intro ha
      refine ⟨σ.symm a, ?_, σ.apply_symm_apply a⟩
      rw [List.mem_range'_1, ← hmem, σ.apply_symm_apply]
      exact ha

/-- **The first elements are a permutation** of what they were. -/
theorem perm (h : Rearranged lo hi d d') (hn : hi < n) :
    ((List.range n).map d').Perm ((List.range n).map d) := by
  rw [List.range_eq_range']
  exact h.perm_range' (Nat.zero_le lo) (by omega)

end Rearranged

/-! ### The part that is in order -/

variable [Preorder α]

/-- The positions below `lo` are as in a sorted sequence: nothing behind them is less. -/
def SortedTo (d : ℕ → α) (n lo : ℕ) : Prop := ∀ k m, k < lo → k ≤ m → m < n → d k ≤ d m

theorem sortedTo_zero (d : ℕ → α) (n : ℕ) : SortedTo d n 0 :=
  fun _ _ hk => absurd hk (Nat.not_lt_zero _)

/-- **The order reaches further** when the least of the elements behind it has come first. -/
theorem SortedTo.extend (h : SortedTo d n lo) (hr : Rearranged lo hi d d') (hn : hi + 1 = n)
    (hmin : ∀ m, lo ≤ m → m ≤ hi → d' lo ≤ d' m) : SortedTo d' n (lo + 1) := by
  intro k m hk hkm hm
  rcases Nat.lt_or_ge k lo with hlt | hge
  · rw [hr.outside (.inl hlt)]
    by_cases hml : m < lo
    · rw [hr.outside (.inl hml)]
      exact h k m hlt hkm hm
    · exact hr.all (P := (d k ≤ ·)) (fun m' _ _ => h k m' hlt (by omega) (by omega)) (by omega)
        (by omega)
  · obtain rfl : k = lo := by omega
    exact hmin m hkm (by omega)

/-- **A sequence is sorted** when the order reaches all positions but the last one. -/
theorem SortedTo.pairwise (h : SortedTo d n lo) (hn : n ≤ lo + 1) :
    ((List.range n).map d).Pairwise (· ≤ ·) := by
  rw [List.pairwise_map]
  refine List.pairwise_lt_range.imp_of_mem fun {a b} _ hb hab => ?_
  have hbn := List.mem_range.mp hb
  exact h a b (by omega) hab.le hbn

/-- The positions from `hi` on are as in a sorted sequence: nothing in front of them is greater. -/
def SortedFrom (d : ℕ → α) (n hi : ℕ) : Prop := ∀ k m, hi ≤ m → k ≤ m → m < n → d k ≤ d m

theorem sortedFrom_self (d : ℕ → α) (n : ℕ) : SortedFrom d n n :=
  fun _ _ hm _ hmn => absurd hm (not_le.mpr hmn)

/-- **The order reaches further** when the greatest of the elements in front of it has come last. -/
theorem SortedFrom.extend (h : SortedFrom d n (hi + 1)) (hr : Rearranged 0 hi d d')
    (hmax : ∀ m, m ≤ hi → d' m ≤ d' hi) : SortedFrom d' n hi := by
  intro k m hm hkm hmn
  rcases Nat.lt_or_ge hi m with hlt | hge
  · rw [hr.outside (.inr hlt)]
    by_cases hk : hi < k
    · rw [hr.outside (.inr hk)]
      exact h k m hlt hkm hmn
    · exact hr.all (P := (· ≤ d m)) (fun k' _ _ => h k' m hlt (by omega) hmn) (Nat.zero_le k)
        (by omega)
  · obtain rfl : m = hi := by omega
    exact hmax k hkm

end Candcpp
