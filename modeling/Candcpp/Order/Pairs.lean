import Mathlib.Algebra.Order.Ring.Int
import Mathlib.Order.Bounds.Basic

/-!
# Searching pairs of positions

A search over the pairs of two different positions of a sequence. The pairs within a range
(`Candcpp.Inside`) are those with the first position of the range, and those within the rest of it;
or those with the last position, and those within the rest. So a range can be narrowed from both
ends if all pairs with one end can be left out.

`Candcpp.BestPair` says that a number is the greatest value of all pairs but those that are still to
be looked at. A pair need not be looked at if its value is not greater than that of one that has
been looked at (`Candcpp.BestPair.look`), and where no pairs are left, **the number is the greatest
value of all** (`Candcpp.BestPair.isGreatest`).
-/

namespace Candcpp

variable {l r i j k n : ℕ}

/-! ### The pairs within a range -/

/-- The positions `i` and `j`, in this order, are within the range from `l` to `r`. -/
def Inside (l r i j : ℕ) : Prop := l ≤ i ∧ i < j ∧ j ≤ r

theorem not_inside (h : r ≤ l) : ¬ Inside l r i j := by
  rintro ⟨hl, hij, hr⟩
  omega

/-- **The pairs with the first position**, and the others. -/
theorem Inside.left (h : Inside l r i j) : i = l ∨ Inside (l + 1) r i j := by
  obtain ⟨hl, hij, hr⟩ := h
  rcases Nat.eq_or_lt_of_le hl with rfl | hlt
  · exact .inl rfl
  · exact .inr ⟨hlt, hij, hr⟩

/-- **The pairs with the last position**, and the others. -/
theorem Inside.right (h : Inside l (r + 1) i j) : j = r + 1 ∨ Inside l r i j := by
  obtain ⟨hl, hij, hr⟩ := h
  rcases Nat.eq_or_lt_of_le hr with rfl | hlt
  · exact .inl rfl
  · exact .inr ⟨hl, hij, Nat.lt_succ_iff.mp hlt⟩

theorem Inside.mono {l' r' : ℕ} (h : Inside l r i j) (hl : l' ≤ l) (hr : r ≤ r') :
    Inside l' r' i j :=
  ⟨hl.trans h.1, h.2.1, h.2.2.trans hr⟩

/-! ### The pairs with a sum -/

section Sums

variable {d : ℕ → ℤ} {t x y : ℤ}

/-- `x` and `y` are the values at two positions within a range, in this order, and their sum is
`t`. -/
def Sums (d : ℕ → ℤ) (t : ℤ) (l r : ℕ) (x y : ℤ) : Prop :=
  ∃ i j, Inside l r i j ∧ d i = x ∧ d j = y ∧ x + y = t

/-- The values up to the position `n` are in increasing order. -/
def Increasing (d : ℕ → ℤ) (n : ℕ) : Prop := ∀ i j, i ≤ j → j < n → d i ≤ d j

theorem Sums.mono {l' r' : ℕ} (h : Sums d t l r x y) (hl : l' ≤ l) (hr : r ≤ r') :
    Sums d t l' r' x y := by
  obtain ⟨i, j, hij, hx, hy, hsum⟩ := h
  exact ⟨i, j, hij.mono hl hr, hx, hy, hsum⟩

theorem not_sums (h : r ≤ l) : ¬ Sums d t l r x y := by
  rintro ⟨i, j, hij, -⟩
  exact not_inside h hij

/-- **No sum with the first position** is great enough. -/
theorem sums_left (hd : Increasing d n) (hr : r < n) (hlt : d l + d r < t) :
    Sums d t l r x y ↔ Sums d t (l + 1) r x y := by
  refine ⟨?_, fun h => h.mono (Nat.le_succ l) le_rfl⟩
  rintro ⟨i, j, hij, rfl, rfl, hsum⟩
  rcases hij.left with rfl | hij'
  · have hle := hd j r hij.2.2 hr
    omega
  · exact ⟨i, j, hij', rfl, rfl, hsum⟩

/-- **No sum with the last position** is small enough. -/
theorem sums_right (hd : Increasing d n) (hr : r + 1 < n) (hlt : t < d l + d (r + 1)) :
    Sums d t l (r + 1) x y ↔ Sums d t l r x y := by
  refine ⟨?_, fun h => h.mono le_rfl (Nat.le_succ r)⟩
  rintro ⟨i, j, hij, rfl, rfl, hsum⟩
  rcases hij.right with rfl | hij'
  · have hle := hd l i hij.1 (by have := hij.2.1; omega)
    omega
  · exact ⟨i, j, hij', rfl, rfl, hsum⟩

/-- **A pair has been found**: the others have other values, and are within the range without those
that are equal. -/
theorem sums_found {l' r' : ℕ} (hlr : l < r) (heq : d l + d r = t) (hl : l ≤ l') (hr : r' ≤ r)
    (hleft : ∀ i, l ≤ i → i < l' → d i = d l) (hright : ∀ j, r' < j → j ≤ r → d j = d r) :
    Sums d t l r x y ↔ (x = d l ∧ y = d r) ∨ Sums d t l' r' x y := by
  constructor
  · rintro ⟨i, j, ⟨hli, hij, hjr⟩, rfl, rfl, hsum⟩
    by_cases hi : i < l'
    · have hdi := hleft i hli hi
      exact .inl ⟨hdi, by omega⟩
    by_cases hj : r' < j
    · have hdj := hright j hj hjr
      exact .inl ⟨by omega, hdj⟩
    · exact .inr ⟨i, j, ⟨not_lt.mp hi, hij, not_lt.mp hj⟩, rfl, rfl, hsum⟩
  · rintro (⟨rfl, rfl⟩ | h)
    · exact ⟨l, r, ⟨le_rfl, hlr, le_rfl⟩, rfl, rfl, heq⟩
    · exact h.mono hl hr

/-- The first value of a pair within the rest of a range is another one, if the rest starts with
another one. -/
theorem Sums.ne_left (h : Sums d t (l + 1) r x y) (hd : Increasing d n) (hr : r < n)
    (hne : l < r → d (l + 1) ≠ d l) : x ≠ d l := by
  obtain ⟨i, j, ⟨hli, hij, hjr⟩, rfl, -⟩ := h
  have hle := hd l (l + 1) (Nat.le_succ l) (by omega)
  have hle' := hd (l + 1) i hli (by omega)
  have hne := hne (by omega)
  omega

end Sums

/-! ### The greatest value -/

variable {f : ℕ → ℕ → ℤ} {rest rest' : ℕ → ℕ → Prop} {bot m : ℤ}

/-- The values of the pairs of two different positions below `n`. -/
def values (f : ℕ → ℕ → ℤ) (n : ℕ) : Set ℤ := {x | ∃ i j, i < j ∧ j < n ∧ f i j = x}

/-- **The greatest value** of the pairs of positions below `n`, or `bot`, but for the pairs that are
still to be looked at. -/
structure BestPair (f : ℕ → ℕ → ℤ) (n : ℕ) (bot : ℤ) (rest : ℕ → ℕ → Prop) (m : ℤ) : Prop where
  bot_le : bot ≤ m
  le : ∀ i j, i < j → j < n → ¬ rest i j → f i j ≤ m
  mem : m = bot ∨ m ∈ values f n

namespace BestPair

theorem start (f : ℕ → ℕ → ℤ) (bot : ℤ) (h : ∀ i j, i < j → j < n → rest i j) :
    BestPair f n bot rest bot :=
  ⟨le_rfl, fun i j hij hj hno => absurd (h i j hij hj) hno, .inl rfl⟩

/-- **One more pair is looked at**, and all those are left out whose value is not greater. -/
theorem look (h : BestPair f n bot rest m) (hij : i < j) (hj : j < n)
    (hrest : ∀ k l, k < l → l < n → rest k l → rest' k l ∨ f k l ≤ f i j) :
    BestPair f n bot rest' (max m (f i j)) where
  bot_le := h.bot_le.trans (le_max_left _ _)
  le := by
    intro k l hkl hl hno
    by_cases hold : rest k l
    · exact ((hrest k l hkl hl hold).resolve_left hno).trans (le_max_right _ _)
    · exact (h.le k l hkl hl hold).trans (le_max_left _ _)
  mem := by
    rcases le_total m (f i j) with hle | hle
    · rw [max_eq_right hle]
      exact .inr ⟨i, j, hij, hj, rfl⟩
    · rw [max_eq_left hle]
      exact h.mem

theorem congr (h : BestPair f n bot rest m) (hrest : ∀ i j, i < j → j < n → rest i j → rest' i j) :
    BestPair f n bot rest' m :=
  ⟨h.bot_le, fun i j hij hj hno => h.le i j hij hj (mt (hrest i j hij hj) hno), h.mem⟩

/-- **The greatest value of all pairs**, where no pairs are left, and `bot` is not greater than any
value. -/
theorem isGreatest (h : BestPair f n bot rest m) (hn : 2 ≤ n)
    (hrest : ∀ i j, i < j → j < n → ¬ rest i j) (hbot : ∀ x ∈ values f n, bot ≤ x) :
    IsGreatest (values f n) m := by
  have hle : ∀ x ∈ values f n, x ≤ m := by
    rintro _ ⟨i, j, hij, hj, rfl⟩
    exact h.le i j hij hj (hrest i j hij hj)
  refine ⟨?_, hle⟩
  rcases h.mem with rfl | hmem
  · have hfirst : f 0 1 ∈ values f n := ⟨0, 1, Nat.zero_lt_one, hn, rfl⟩
    rwa [le_antisymm (hbot _ hfirst) (hle _ hfirst)]
  · exact hmem

end BestPair

end Candcpp
