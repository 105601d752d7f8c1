import Candcpp.Order.Steps

/-!
# Swaps of adjacent elements

A list of which two adjacent elements may be swapped: `Candcpp.AdjacentSwap`. How many swaps does it
take at least until one element is the first, and another one the last (`Candcpp.toEnds`)?

Each element has to be carried to its end, and one swap carries both of them if they meet. This is
the number `Candcpp.distanceToEnds` of their positions. A swap lowers it by one at most
(`Candcpp.distanceToEnds_le_swap`), and as long as it is not zero, one of the elements can be
carried on (`Candcpp.exists_swap_lt`). So **it is the least number of swaps**
(`Candcpp.isLeast_toEnds`).
-/

namespace Candcpp

variable {α : Type}

/-- **Two adjacent elements** are swapped. -/
inductive AdjacentSwap : List α → List α → Prop
  | mk (p : List α) (x y : α) (q : List α) : AdjacentSwap (p ++ x :: y :: q) (p ++ y :: x :: q)

/-- In how many swaps `a` can be made the first element, and `b` the last one. -/
def toEnds (a b : α) (l : List α) : Set ℕ :=
  {t | ∃ l', Steps AdjacentSwap t l l' ∧ l'.head? = some a ∧ l'.getLast? = some b}

/-- How far the positions `i` and `j` of `n` are from the first and the last one; where they have to
pass each other, one swap is for both. -/
def distanceToEnds (n i j : ℕ) : ℕ :=
  if j < i then i + (n - 1 - j) - 1 else i + (n - 1 - j)

variable {l l' : List α} {a b : α} {i j k n t : ℕ}

/-! ### Positions -/

/-- Every element is where the swap of the two positions takes it. -/
theorem getElem?_swapped (p : List α) (x y : α) (q : List α) (i : ℕ) :
    (p ++ y :: x :: q)[Equiv.swap p.length (p.length + 1) i]? = (p ++ x :: y :: q)[i]? := by
  rcases Nat.lt_or_ge i p.length with hlt | hge
  · rw [Equiv.swap_apply_of_ne_of_ne (by omega) (by omega), List.getElem?_append_left hlt,
      List.getElem?_append_left hlt]
  · obtain ⟨d, rfl⟩ := Nat.exists_eq_add_of_le hge
    match d with
    | 0 => simp
    | 1 => simp
    | d + 2 =>
      rw [Equiv.swap_apply_of_ne_of_ne (by omega) (by omega), List.getElem?_append_right (by omega),
        List.getElem?_append_right (by omega), Nat.add_sub_cancel_left]
      rfl

/-- **A swap** is one of two adjacent positions. -/
theorem AdjacentSwap.exists_position (h : AdjacentSwap l l') :
    ∃ k, k + 1 < l.length ∧ ∀ i, l'[Equiv.swap k (k + 1) i]? = l[i]? := by
  obtain ⟨p, x, y, q⟩ := h
  refine ⟨p.length, ?_, getElem?_swapped p x y q⟩
  rw [List.length_append, List.length_cons, List.length_cons]
  omega

/-- Any two adjacent positions can be swapped. -/
theorem exists_adjacentSwap (hk : k + 1 < l.length) :
    ∃ l', AdjacentSwap l l' ∧ ∀ i, l'[Equiv.swap k (k + 1) i]? = l[i]? := by
  have hsplit : l = l.take k ++ l[k] :: l[k + 1] :: l.drop (k + 2) := by
    rw [← List.drop_eq_getElem_cons hk, ← List.drop_eq_getElem_cons (by omega),
      List.take_append_drop]
  have hlen : (l.take k).length = k := by
    rw [List.length_take]
    omega
  have hpos := getElem?_swapped (l.take k) l[k] l[k + 1] (l.drop (k + 2))
  have hswap := AdjacentSwap.mk (l.take k) l[k] l[k + 1] (l.drop (k + 2))
  rw [← hsplit, hlen] at hpos
  rw [← hsplit] at hswap
  exact ⟨_, hswap, hpos⟩

theorem AdjacentSwap.perm (h : AdjacentSwap l l') : l'.Perm l := by
  obtain ⟨p, x, y, q⟩ := h
  exact (List.Perm.swap x y q).append_left p

theorem Steps.perm (h : Steps AdjacentSwap t l l') : l'.Perm l :=
  h.preserves (P := fun m => m.Perm l) (fun _ _ hab ha => hab.perm.trans ha) (List.Perm.refl l)

/-! ### The distance -/

/-- **A swap** takes off one at most. -/
theorem distanceToEnds_le_swap (hij : i ≠ j) (hi : i < n) (hj : j < n) (hk : k + 1 < n) :
    distanceToEnds n i j ≤
      distanceToEnds n (Equiv.swap k (k + 1) i) (Equiv.swap k (k + 1) j) + 1 := by
  simp only [distanceToEnds, Equiv.swap_apply_def]
  grind

/-- **One of the elements can be carried on**, where the distance is not zero. -/
theorem exists_swap_lt (hij : i ≠ j) (hi : i < n) (hj : j < n)
    (hd : distanceToEnds n i j = t + 1) : ∃ k, k + 1 < n ∧
      distanceToEnds n (Equiv.swap k (k + 1) i) (Equiv.swap k (k + 1) j) = t := by
  simp only [distanceToEnds, Equiv.swap_apply_def] at *
  rcases Nat.eq_zero_or_pos i with rfl | hpos
  · refine ⟨j, ?_, ?_⟩ <;> grind
  · refine ⟨i - 1, ?_, ?_⟩ <;> grind

/-- The elements are at the ends exactly where the distance is zero. -/
theorem distanceToEnds_eq_zero_iff (hi : i < n) (hj : j < n) :
    distanceToEnds n i j = 0 ↔ i = 0 ∧ j = n - 1 := by
  rw [distanceToEnds]
  split_ifs <;> omega

/-! ### The least number of swaps -/

/-- **Each number of swaps** is at least what the distance has become less by. -/
theorem Steps.exists_positions (h : Steps AdjacentSwap t l l') (hij : i ≠ j)
    (hi : l[i]? = some a) (hj : l[j]? = some b) : ∃ i' j', i' ≠ j' ∧ l'[i']? = some a ∧
      l'[j']? = some b ∧ distanceToEnds l.length i j ≤ distanceToEnds l.length i' j' + t := by
  induction h generalizing i j with
  | done => exact ⟨i, j, hij, hi, hj, le_rfl⟩
  | @next t l m l' hswap hrest ih =>
    obtain ⟨k, hk, hpos⟩ := hswap.exists_position
    have hilt := (List.getElem?_eq_some_iff.mp hi).1
    have hjlt := (List.getElem?_eq_some_iff.mp hj).1
    obtain ⟨i', j', hij', hi', hj', hle⟩ := ih ((Equiv.injective _).ne hij)
      ((hpos i).trans hi) ((hpos j).trans hj)
    have hone := distanceToEnds_le_swap hij hilt hjlt hk
    rw [hswap.perm.length_eq] at hle
    exact ⟨i', j', hij', hi', hj', by omega⟩

/-- **As many swaps as the distance** are enough. -/
theorem exists_steps (hij : i ≠ j) (hi : l[i]? = some a) (hj : l[j]? = some b)
    (hd : distanceToEnds l.length i j = t) :
    ∃ l', Steps AdjacentSwap t l l' ∧ l'[0]? = some a ∧ l'[l'.length - 1]? = some b := by
  induction t generalizing l i j with
  | zero =>
    obtain ⟨rfl, rfl⟩ := (distanceToEnds_eq_zero_iff (List.getElem?_eq_some_iff.mp hi).1
      (List.getElem?_eq_some_iff.mp hj).1).mp hd
    exact ⟨l, .done, hi, hj⟩
  | succ t ih =>
    obtain ⟨k, hk, hdist⟩ := exists_swap_lt hij (List.getElem?_eq_some_iff.mp hi).1
      (List.getElem?_eq_some_iff.mp hj).1 hd
    obtain ⟨m, hswap, hpos⟩ := exists_adjacentSwap hk
    rw [← hswap.perm.length_eq] at hdist
    obtain ⟨l', hrest, hends⟩ := ih ((Equiv.injective _).ne hij) ((hpos i).trans hi)
      ((hpos j).trans hj) hdist
    exact ⟨l', .next hswap hrest, hends⟩

/-- **The least number of swaps** is the distance of the two elements from the ends. -/
theorem isLeast_toEnds (hnd : l.Nodup) (hab : a ≠ b) (hi : l[i]? = some a) (hj : l[j]? = some b) :
    IsLeast (toEnds a b l) (distanceToEnds l.length i j) := by
  have hij : i ≠ j := by
    rintro rfl
    exact hab (Option.some.inj (hi.symm.trans hj))
  constructor
  · obtain ⟨l', hsteps, hfirst, hlast⟩ := exists_steps hij hi hj rfl
    rw [← List.head?_eq_getElem?] at hfirst
    rw [← List.getLast?_eq_getElem?] at hlast
    exact ⟨l', hsteps, hfirst, hlast⟩
  · rintro t ⟨l', hsteps, hfirst, hlast⟩
    obtain ⟨i', j', hij', hi', hj', hle⟩ := hsteps.exists_positions hij hi hj
    have hnd' := hsteps.perm.nodup_iff.mpr hnd
    -- every element is at one position only
    have huniq : ∀ {p q : ℕ} {x : α}, l'[p]? = some x → l'[q]? = some x → p = q := by
      intro p q x hp hq
      exact (List.getElem?_inj (List.getElem?_eq_some_iff.mp hp).1 hnd').mp (hp.trans hq.symm)
    rw [List.head?_eq_getElem?] at hfirst
    rw [List.getLast?_eq_getElem?] at hlast
    obtain rfl := huniq hi' hfirst
    obtain rfl := huniq hj' hlast
    have hlt := (List.getElem?_eq_some_iff.mp hi').1
    have hzero : distanceToEnds l.length 0 (l'.length - 1) = 0 := by
      rw [distanceToEnds_eq_zero_iff (by rw [← hsteps.perm.length_eq]; exact hlt)
        (by rw [← hsteps.perm.length_eq]; omega), hsteps.perm.length_eq]
      exact ⟨rfl, rfl⟩
    rw [hzero] at hle
    omega

end Candcpp
