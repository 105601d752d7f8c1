import Mathlib.Algebra.BigOperators.Group.Finset.Basic
import Mathlib.Algebra.BigOperators.Ring.Finset
import Mathlib.Data.Int.Cast.Lemmas
import Mathlib.Tactic.Ring

/-!
# Numbers of walks, row by row

The number of the walks with `n` steps from a node of a graph (`Candcpp.walks`), where `next` lists
the nodes that one step leads to, and a table of these numbers that is computed row by row by adding
to what it holds (`Candcpp.accumulated`).

What the table holds at first travels along the walks like the ones of the first row. Where every
step can be taken back (`Candcpp.Reversible`), an entry of the row `i` has come into the last row
once for each walk that begins at it. So **the sum over a row is the number of the walks with that
many steps, and a surplus** (`Candcpp.sum_accumulated`) that is linear in what the table holds at
first (`Candcpp.surplus`).
-/

namespace Candcpp

open Finset

variable {α : Type} (next : α → List α)

/-- **The number of walks** with `n` steps from a node, by the first step. -/
def walks : ℕ → α → ℕ
  | 0, _ => 1
  | n + 1, x => ((next x).map (walks n)).sum

/-- **The rows of a table** that begins with ones, and in which every other row is computed from the
one before by adding to what it holds. -/
def accumulated (g : ℕ → α → ℤ) : ℕ → α → ℤ
  | 0, _ => 1
  | n + 1, x => g (n + 1) x + ((next x).map (accumulated g n)).sum

/-- **Every step can be taken back**, within a set of nodes: a sum over the steps may be taken by
their ends. -/
def Reversible (S : Finset α) : Prop :=
  ∀ f w : α → ℤ, ∑ x ∈ S, ((next x).map f).sum * w x = ∑ x ∈ S, f x * ((next x).map w).sum

/-- What the rows from 1 to `m` hold at first, each entry as often as there are walks from it to the
row `m`. -/
def surplus (S : Finset α) (g : ℕ → α → ℤ) (m : ℕ) : ℤ :=
  ∑ i ∈ range m, ∑ x ∈ S, g (i + 1) x * walks next (m - 1 - i) x

variable {next} {S : Finset α} {g : ℕ → α → ℤ}

theorem cast_walks_succ (n : ℕ) (x : α) :
    (walks next (n + 1) x : ℤ) = ((next x).map fun k => (walks next n k : ℤ)).sum := by
  rw [walks, Nat.cast_list_sum, List.map_map]
  rfl

/-- A row, weighted by the numbers of the walks with `j` steps. -/
theorem sum_accumulated_mul (h : Reversible next S) (n j : ℕ) :
    ∑ x ∈ S, accumulated next g n x * walks next j x = ∑ x ∈ S, (walks next (n + j) x : ℤ) +
      ∑ i ∈ range n, ∑ x ∈ S, g (i + 1) x * walks next (n - 1 - i + j) x := by
  induction n generalizing j with
  | zero =>
    rw [range_zero, sum_empty, add_zero, Nat.zero_add]
    refine sum_congr rfl fun x _ => ?_
    rw [accumulated, one_mul]
  | succ n ih =>
    have hstep : ∑ x ∈ S, ((next x).map (accumulated next g n)).sum * (walks next j x : ℤ) =
        ∑ x ∈ S, accumulated next g n x * walks next (j + 1) x := by
      rw [h]
      refine sum_congr rfl fun x _ => ?_
      rw [cast_walks_succ]
    have hrows : ∀ i ∈ range n, ∑ x ∈ S, g (i + 1) x * (walks next (n - 1 - i + (j + 1)) x : ℤ) =
        ∑ x ∈ S, g (i + 1) x * walks next (n + 1 - 1 - i + j) x := by
      intro i hi
      have hlt := mem_range.mp hi
      rw [show n - 1 - i + (j + 1) = n + 1 - 1 - i + j by omega]
    calc ∑ x ∈ S, accumulated next g (n + 1) x * (walks next j x : ℤ)
        = ∑ x ∈ S, g (n + 1) x * (walks next j x : ℤ) +
            ∑ x ∈ S, ((next x).map (accumulated next g n)).sum * (walks next j x : ℤ) := by
          rw [← sum_add_distrib]
          refine sum_congr rfl fun x _ => ?_
          rw [accumulated, add_mul]
      _ = ∑ x ∈ S, (walks next (n + 1 + j) x : ℤ) +
            ∑ i ∈ range (n + 1), ∑ x ∈ S, g (i + 1) x * walks next (n + 1 - 1 - i + j) x := by
          rw [hstep, ih, sum_range_succ, sum_congr rfl hrows,
            show n + 1 - 1 - n + j = j by omega, show n + 1 + j = n + (j + 1) by omega]
          ring

/-- **The sum over a row** is the number of the walks, and the surplus. -/
theorem sum_accumulated (h : Reversible next S) (m : ℕ) :
    ∑ x ∈ S, accumulated next g m x = ∑ x ∈ S, (walks next m x : ℤ) + surplus next S g m := by
  have hsum := sum_accumulated_mul (g := g) h m 0
  simp only [walks, Nat.cast_one, mul_one, Nat.add_zero] at hsum
  exact hsum

/-- What the last row holds at first is in the sum as it stands. -/
theorem surplus_single [DecidableEq α] {y : α} (hy : y ∈ S) (m : ℕ) :
    surplus next S (fun i x => if i = m + 1 ∧ x = y then 1 else 0) (m + 1) = 1 := by
  rw [surplus, sum_range_succ, sum_eq_zero, zero_add]
  · rw [sum_eq_single_of_mem y hy]
    · rw [if_pos ⟨rfl, rfl⟩, Nat.add_sub_cancel, Nat.sub_self, walks, Nat.cast_one, mul_one]
    · intro x _ hne
      rw [if_neg fun h => hne h.2, zero_mul]
  · intro i hi
    refine sum_eq_zero fun x _ => ?_
    have hlt := mem_range.mp hi
    rw [if_neg fun h => by omega, zero_mul]

end Candcpp
