import Mathlib

/-!
# Windows of a sequence

The part of a list between two positions (`Candcpp.between`), and the shortest one that has a
property. A property of windows is given by their two ends, and a window that contains one that has
it is taken to have it as well.

`Candcpp.Accounted` says that a number is the minimum of a bound and of the lengths of all windows
that have the property and start before some position. So the search goes over the starts: for each
of them, only the first end matters (`Candcpp.Accounted.shortest`), and when no more window has the
property **the number is the least length, or the bound** (`Candcpp.Accounted.eq_min`). This is the
same for a search that tries the ends of each start and for one that moves both ends to the right
(`Candcpp.Slid`).
-/

namespace Candcpp

/-! ### The part between two positions -/

section Between

variable {α : Type} {l : List α} {x : α} {a b k : ℕ}

/-- The elements from the position `a` on and before `b`. -/
def between (l : List α) (a b : ℕ) : List α := (l.drop a).take (b - a)

theorem between_self (l : List α) (a : ℕ) : between l a a = [] := by
  rw [between, Nat.sub_self, List.take_zero]

theorem between_all (l : List α) : between l 0 l.length = l := by
  rw [between, List.drop_zero, Nat.sub_zero, List.take_length]

theorem length_between (hb : b ≤ l.length) : (between l a b).length = b - a := by
  rw [between, List.length_take, List.length_drop]
  omega

/-- Two parts that meet. -/
theorem between_append (hak : a ≤ k) (hkb : k ≤ b) :
    between l a b = between l a k ++ between l k b := by
  rw [between, show b - a = (k - a) + (b - k) by omega, List.take_add, List.drop_drop,
    Nat.add_sub_cancel' hak, between, between]

/-- The first element of a part. -/
theorem between_cons (hab : a < b) (hx : l[a]? = some x) :
    between l a b = x :: between l (a + 1) b := by
  obtain ⟨hlt, rfl⟩ := List.getElem?_eq_some_iff.mp hx
  rw [between, List.drop_eq_getElem_cons hlt, show b - a = b - (a + 1) + 1 by omega,
    List.take_succ_cons, between]

/-- The last element of a part. -/
theorem between_concat (hab : a ≤ b) (hx : l[b]? = some x) :
    between l a (b + 1) = between l a b ++ [x] := by
  rw [between_append hab (Nat.le_succ b), between_cons (Nat.lt_succ_self b) hx, between_self]

/-- An element of a part. -/
theorem between_split (hak : a ≤ k) (hkb : k < b) (hx : l[k]? = some x) :
    between l a b = between l a k ++ x :: between l (k + 1) b := by
  rw [between_append hak hkb.le, between_cons hkb hx]

theorem mem_between (hx : x ∈ between l a b) : ∃ k, a ≤ k ∧ k < b ∧ l[k]? = some x := by
  obtain ⟨i, hi, rfl⟩ := List.mem_take_iff_getElem.mp hx
  rw [List.length_drop] at hi
  refine ⟨a + i, by omega, by omega, ?_⟩
  rw [List.getElem_drop]
  exact List.getElem?_eq_getElem _

/-- The parts of a list are those between two positions. -/
theorem infix_iff_between {m : List α} :
    m <:+: l ↔ ∃ a b, a ≤ b ∧ b ≤ l.length ∧ m = between l a b := by
  constructor
  · rintro ⟨pre, post, rfl⟩
    refine ⟨pre.length, pre.length + m.length, Nat.le_add_right _ _, by simp, ?_⟩
    rw [between, List.append_assoc, List.drop_left, Nat.add_sub_cancel_left, List.take_left]
  · rintro ⟨a, b, -, -, rfl⟩
    exact (List.take_prefix _ _).isInfix.trans (List.drop_suffix _ _).isInfix

end Between

/-! ### The shortest window -/

variable {good : ℕ → ℕ → Prop} {n i j m : ℕ} {top ans : ℤ}

/-- A larger window has the property if a smaller one has it. -/
def Extends (good : ℕ → ℕ → Prop) : Prop :=
  ∀ l r l' r', l' ≤ l → l < r → r ≤ r' → good l r → good l' r'

/-- The lengths of the windows that have the property. -/
def goodLengths (good : ℕ → ℕ → Prop) (n : ℕ) : Set ℕ :=
  {m | 0 < m ∧ ∃ l, l + m ≤ n ∧ good l (l + m)}

theorem mem_goodLengths (hij : i < j) (hj : j ≤ n) (hgood : good i j) :
    j - i ∈ goodLengths good n :=
  ⟨Nat.sub_pos_of_lt hij, i, by omega, by rwa [Nat.add_sub_cancel' hij.le]⟩

/-- `ans` is the minimum of `top` and of the lengths of the windows that have the property, end at
`n` or before, and start before `i`. -/
def Accounted (good : ℕ → ℕ → Prop) (n i : ℕ) (top ans : ℤ) : Prop :=
  ∀ z : ℤ, z ≤ ans ↔
    z ≤ top ∧ ∀ l r, l < i → l < r → r ≤ n → good l r → z ≤ (r : ℤ) - l

namespace Accounted

theorem zero (good : ℕ → ℕ → Prop) (n : ℕ) (top : ℤ) : Accounted good n 0 top top :=
  fun _ => (and_iff_left fun _ _ hl => absurd hl (Nat.not_lt_zero _)).symm

/-- **Of the windows with one start** the shortest one counts. -/
theorem shortest (h : Accounted good n i top ans) (hij : i < j) (hjn : j ≤ n) (hgood : good i j)
    (hfirst : ∀ r, i < r → r < j → ¬ good i r) :
    Accounted good n (i + 1) top (min ans ((j : ℤ) - i)) := by
  intro z
  rw [le_min_iff, h z]
  constructor
  · rintro ⟨⟨htop, hall⟩, hz⟩
    refine ⟨htop, fun l r hl hlr hrn hg => ?_⟩
    rcases Nat.lt_succ_iff_lt_or_eq.mp hl with hlt | rfl
    · exact hall l r hlt hlr hrn hg
    · have hjr : j ≤ r := not_lt.mp fun hrj => hfirst r hlr hrj hg
      omega
  · rintro ⟨htop, hall⟩
    exact ⟨⟨htop, fun l r hl => hall l r (by omega)⟩, hall i j (Nat.lt_succ_self i) hij hjn hgood⟩

/-- **No window with these starts** has the property. -/
theorem extend (h : Accounted good n i top ans) (hij : i ≤ j)
    (hnone : ∀ l r, i ≤ l → l < j → l < r → r ≤ n → ¬ good l r) : Accounted good n j top ans := by
  intro z
  rw [h z]
  refine and_congr_right fun _ => ⟨fun hall l r hl hlr hrn hg => ?_, fun hall l r hl => ?_⟩
  · by_contra hlt
    refine hlt (hall l r ?_ hlr hrn hg)
    by_contra hil
    exact hnone l r (not_lt.mp hil) hl hlr hrn hg
  · exact hall l r (by omega)

theorem le_top (h : Accounted good n i top ans) : ans ≤ top := ((h ans).mp le_rfl).1

/-- **The least length**, where there is a window that has the property. -/
theorem eq_min (h : Accounted good n n top ans) (hm : IsLeast (goodLengths good n) m) :
    ans = min top m := by
  obtain ⟨⟨hpos, l, hl, hgood⟩, hleast⟩ := hm
  refine eq_of_forall_le_iff fun z => ?_
  rw [h z, le_min_iff]
  refine and_congr_right fun _ => ⟨fun hall => ?_, fun hz l' r hl' hlr hrn hg => ?_⟩
  · have hz := hall l (l + m) (by omega) (by omega) hl hgood
    push_cast at hz
    omega
  · have hmr : m ≤ r - l' := hleast (mem_goodLengths hlr hrn hg)
    omega

/-- The bound stays where no window has the property. -/
theorem eq_top (h : Accounted good n n top ans) (hnone : goodLengths good n = ∅) : ans = top := by
  refine eq_of_forall_le_iff fun z => ?_
  rw [h z]
  refine and_iff_left fun l r hl hlr hrn hg => ?_
  have hmem := mem_goodLengths hlr hrn hg
  rw [hnone] at hmem
  exact absurd hmem (Set.notMem_empty _)

/-! By their ends: a window that ends at `n` or before starts before `n`. -/

/-- **Of the windows with one end** the shortest one counts. -/
theorem ending (h : Accounted good n n top ans) (hi : i ≤ n) (hgood : good i (n + 1))
    (hlast : ∀ l, i < l → l ≤ n → ¬ good l (n + 1)) :
    Accounted good (n + 1) (n + 1) top (min ans ((n : ℤ) + 1 - i)) := by
  intro z
  rw [le_min_iff, h z]
  constructor
  · rintro ⟨⟨htop, hall⟩, hz⟩
    refine ⟨htop, fun l r hl hlr hrn hg => ?_⟩
    rcases Nat.le_succ_iff.mp hrn with hle | rfl
    · exact hall l r (by omega) hlr hle hg
    · have hli : l ≤ i := not_lt.mp fun hil => hlast l hil (by omega) hg
      push_cast
      omega
  · rintro ⟨htop, hall⟩
    refine ⟨⟨htop, fun l r hl hlr hrn => hall l r (by omega) hlr (by omega)⟩, ?_⟩
    have hz := hall i (n + 1) (by omega) (by omega) le_rfl hgood
    push_cast at hz
    exact hz

/-- **No window with this end** has the property. -/
theorem no_ending (h : Accounted good n n top ans) (hnone : ∀ l ≤ n, ¬ good l (n + 1)) :
    Accounted good (n + 1) (n + 1) top ans := by
  intro z
  rw [h z]
  refine and_congr_right fun _ => ⟨fun hall l r hl hlr hrn hg => ?_, fun hall l r hl hlr hrn => ?_⟩
  · rcases Nat.le_succ_iff.mp hrn with hle | rfl
    · exact hall l r (by omega) hlr hle hg
    · exact absurd hg (hnone l (by omega))
  · exact hall l r (by omega) hlr (by omega)

end Accounted

/-! ### Moving both ends -/

/-- **A window that is moved to the right**, from `l` up to before `r`: the windows that start
before `l` are accounted for, and of the others none up to `r` has the property. -/
structure Slid (good : ℕ → ℕ → Prop) (n l r : ℕ) (top ans : ℤ) : Prop where
  accounted : Accounted good n l top ans
  fails : ∀ i j, l ≤ i → i < j → j ≤ r → ¬ good i j

namespace Slid

variable {l r : ℕ}

theorem init (good : ℕ → ℕ → Prop) (n : ℕ) (top : ℤ) : Slid good n 0 0 top top where
  accounted := .zero good n top
  fails := fun i j _ hij hj => absurd hij (by omega)

/-- **The left end moves** when the window up to the next position has the property. -/
theorem drop (h : Slid good n l r top ans) (hlr : l ≤ r) (hr : r < n) (hgood : good l (r + 1)) :
    Slid good n (l + 1) r top (min ans ((r : ℤ) - l + 1)) where
  accounted := by
    have hnext := h.accounted.shortest (by omega) hr hgood fun j hj hjr =>
      h.fails l j le_rfl hj (by omega)
    rwa [show ((r + 1 : ℕ) : ℤ) - l = (r : ℤ) - l + 1 by push_cast; ring] at hnext
  fails := fun i j hi => h.fails i j (by omega)

/-- **The right end moves** when it has not, or when the window is empty. -/
theorem grow (h : Slid good n l r top ans) (hext : Extends good)
    (hstop : r < l ∨ ¬ good l (r + 1)) : Slid good n l (r + 1) top ans where
  accounted := h.accounted
  fails := by
    intro i j hi hij hj hgood
    rcases hstop with hrl | hfail
    · omega
    · exact hfail (hext i j l (r + 1) hi hij hj hgood)

/-- At the end all windows are accounted for. -/
theorem finish (h : Slid good n l n top ans) (hl : l ≤ n) : Accounted good n n top ans :=
  h.accounted.extend hl fun i j hi _ hij hj => h.fails i j hi hij hj

end Slid

/-- There is a least length, or none. -/
theorem exists_isLeast_or (good : ℕ → ℕ → Prop) (n : ℕ) :
    goodLengths good n = ∅ ∨ ∃ m, IsLeast (goodLengths good n) m := by
  rcases Set.eq_empty_or_nonempty (goodLengths good n) with h | h
  · exact .inl h
  · exact .inr ⟨_, Nat.sInf_mem h, fun _ hm => Nat.sInf_le hm⟩

end Candcpp
