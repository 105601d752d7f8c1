import Mathlib

/-!
# One repeated number

A list of `n + 1` numbers from one to `n` of which exactly one occurs more than once:
`Candcpp.Repeated`. How many numbers are at most `i` tells whether the repeated one is: up to the
number before it there are at most `i` of them, all different, and from it on there are more
(`Candcpp.Repeated.lt_countP_iff`), since at most `n - i` different numbers are greater.
-/

namespace Candcpp

/-- **One number is repeated**, in a list of one number more than there are values. -/
structure Repeated (n : ℕ) (d : ℤ) (l : List ℤ) : Prop where
  length : l.length = n + 1
  bounds : ∀ x ∈ l, 1 ≤ x ∧ x ≤ n
  repeated : ∀ x, 1 < l.count x ↔ x = d

namespace Repeated

variable {n : ℕ} {d i : ℤ} {l : List ℤ} {P : ℤ → Bool}

theorem mem (h : Repeated n d l) : d ∈ l :=
  List.count_pos_iff.mp (Nat.zero_lt_of_lt ((h.repeated d).mpr rfl))

theorem one_le (h : Repeated n d l) : 1 ≤ d := (h.bounds d h.mem).1

theorem le (h : Repeated n d l) : d ≤ n := (h.bounds d h.mem).2

/-- How many values there are. -/
theorem length_sub_one (h : Repeated n d l) : (l.length : ℤ) - 1 = n := by
  rw [h.length]
  push_cast
  ring

/-- Among the numbers without the repeated one none occurs twice. -/
theorem nodup_filter (h : Repeated n d l) (hd : ¬ P d) : (l.filter P).Nodup := by
  rw [List.nodup_iff_count_le_one]
  intro x
  by_cases hx : P x
  · rw [List.count_filter hx]
    refine not_lt.mp fun hlt => hd ?_
    rwa [← (h.repeated x).mp hlt]
  · rw [List.count_eq_zero_of_not_mem fun hmem => hx (List.of_mem_filter hmem)]
    exact Nat.zero_le 1

/-- **How many numbers there are** without the repeated one, all in some interval. -/
theorem countP_le (h : Repeated n d l) (hd : ¬ P d) {a b : ℤ}
    (hP : ∀ x ∈ l, P x → a ≤ x ∧ x ≤ b) : l.countP P ≤ (b + 1 - a).toNat := by
  rw [List.countP_eq_length_filter, ← List.toFinset_card_of_nodup (h.nodup_filter hd),
    ← Int.card_Icc]
  refine Finset.card_le_card fun x hx => ?_
  rw [List.mem_toFinset, List.mem_filter] at hx
  exact Finset.mem_Icc.mpr (hP x hx.1 hx.2)

/-- **More than `i` numbers are at most `i`** exactly from the repeated one on. -/
theorem lt_countP_iff (h : Repeated n d l) (hi : 0 ≤ i) (hin : i ≤ n) :
    i < l.countP (· ≤ i) ↔ d ≤ i := by
  constructor
  · intro hlt
    by_contra hd
    have hle := h.countP_le (P := (· ≤ i)) (a := 1) (b := i) (by simpa using hd)
      fun x hx hxi => ⟨(h.bounds x hx).1, by simpa using hxi⟩
    omega
  · intro hd
    have hsum := List.length_eq_countP_add_countP (fun x => decide (x ≤ i)) (l := l)
    have hle := h.countP_le (P := fun x => decide ¬ decide (x ≤ i) = true) (a := i + 1) (b := n)
      (by simpa using hd) fun x hx hxi => ⟨by simpa using hxi, (h.bounds x hx).2⟩
    rw [h.length] at hsum
    omega

end Repeated

end Candcpp
