import Candcpp.Cpp.Grid

/-!
# A substring that occurs in the reverse

The two versions of `3083.cpp`, which ask whether some substring of two letters occurs in the
reverse of a string as well. `isSubstringPresent_my` tries all pairs of positions.
`isSubstringPresent` goes over the string once, and records the pairs of neighbouring letters in a
table `vis`, where it looks up each of them backwards.

The table is a local array that is not initialised, and so what it holds at first is a parameter
here. An entry that this call has not written may be read, and is taken for a pair that has been
seen: **the two versions agree exactly if the answer is yes, or the table holds nothing at first
where a pair of the string is looked up** (`Candcpp.SubstringPresent.agree_iff`).

A position of the string is not bounded, since a string has no more letters than an `int` counts.
-/

namespace Candcpp

open Cpp

namespace SubstringPresent

/-! ### The code -/

/-- `s[i] - 'a'`, of the letter. -/
def letter (c : Char) : ℤ := (c.toNat : ℤ) - ('a'.toNat : ℤ)

/-- `for (int i = 1; i < s.size(); i++)`. -/
def pairLoop (s : List Char) (i : ℤ) (vis : Grid Bool) : Exec Bool := do
  let +zeta pairLoop : type_of% pairLoop := by apply pairLoop
  if i < s.length then
    let c ← nth s (i - 1)
    let d ← nth s i
    let x := letter c
    let y := letter d
    let vis ← vis.put x y true
    if ← vis.get y x then
      pure true
    else
      pairLoop s (i + 1) vis
  else
    pure false
partial_fixpoint

/-- `isSubstringPresent`, with what the array `vis` holds at first. -/
def isSubstringPresent (s : List Char) (vis : ℕ → ℕ → Bool) : Exec Bool :=
  pairLoop s 1 { data := vis, rows := 26, cols := 26 }

/-- `for (int j = n - 1; j - 1 >= 0; j--)`. -/
def reverseLoop (s : List Char) (i j : ℤ) : Exec Bool := do
  let +zeta reverseLoop : type_of% reverseLoop := by apply reverseLoop
  if j - 1 ≥ 0 then
    let sj ← nth s j
    let si ← nth s i
    if sj = si then
      let sj ← nth s (j - 1)
      let si ← nth s (i + 1)
      if sj = si then
        pure true
      else
        reverseLoop s i (j - 1)
    else
      reverseLoop s i (j - 1)
  else
    pure false
partial_fixpoint

/-- `for (int i = 0; i + 1 < n; i++)`. -/
def startLoop (s : List Char) (n i : ℤ) : Exec Bool := do
  let +zeta startLoop : type_of% startLoop := by apply startLoop
  if i + 1 < n then
    if ← reverseLoop s i (n - 1) then
      pure true
    else
      startLoop s n (i + 1)
  else
    pure false
partial_fixpoint

/-- `isSubstringPresent_my`. -/
def isSubstringPresentMy (s : List Char) : Exec Bool := startLoop s s.length 0

/-! ### The right answer -/

/-- A string of lower-case letters. -/
def Lowercase (s : List Char) : Prop := ∀ c ∈ s, 'a' ≤ c ∧ c ≤ 'z'

/-- Some substring of two letters occurs in the reverse of the string as well. -/
def Present (s : List Char) : Prop := ∃ sub, sub.length = 2 ∧ sub <:+: s ∧ sub <:+: s.reverse

/-- Which letter of the alphabet it is, from zero on. -/
def place (c : Char) : ℕ := c.toNat - 'a'.toNat

/-- The letters at the position `k` and the next one. -/
def PairAt (s : List Char) (k : ℕ) (c d : Char) : Prop := s[k]? = some c ∧ s[k + 1]? = some d

variable {s : List Char} {c d c' d' : Char} {k m : ℕ}

theorem pair_infix_iff : [c, d] <:+: s ↔ ∃ k, PairAt s k c d := by
  rw [List.infix_iff_getElem?]
  constructor
  · rintro ⟨k, -, h⟩
    exact ⟨k, by simpa using h 0 (by simp), by simpa [Nat.add_comm] using h 1 (by simp)⟩
  · rintro ⟨k, hc, hd⟩
    have hlt := (List.getElem?_eq_some_iff.mp hd).1
    refine ⟨k, by simp; omega, fun i hi => ?_⟩
    rw [List.length_cons, List.length_singleton] at hi
    rcases (show i = 0 ∨ i = 1 by omega) with rfl | rfl
    · simpa using hc
    · simpa [Nat.add_comm] using hd

/-- In the reverse of a string the pairs are the other way round. -/
theorem present_iff : Present s ↔ ∃ c d j k, PairAt s j c d ∧ PairAt s k d c := by
  have hrev : ∀ c d : Char, [c, d] <:+: s.reverse ↔ [d, c] <:+: s := by
    intro c d
    rw [← List.reverse_infix, List.reverse_reverse]
    rfl
  constructor
  · rintro ⟨sub, hlen, hs, hr⟩
    obtain ⟨c, d, rfl⟩ := List.length_eq_two.mp hlen
    obtain ⟨j, hj⟩ := pair_infix_iff.mp hs
    obtain ⟨k, hk⟩ := pair_infix_iff.mp ((hrev c d).mp hr)
    exact ⟨c, d, j, k, hj, hk⟩
  · rintro ⟨c, d, j, k, hj, hk⟩
    exact ⟨[c, d], rfl, pair_infix_iff.mpr ⟨j, hj⟩, (hrev c d).mpr (pair_infix_iff.mpr ⟨k, hk⟩)⟩

theorem PairAt.lt (h : PairAt s k c d) : k + 1 < s.length := (List.getElem?_eq_some_iff.mp h.2).1

theorem PairAt.unique (h : PairAt s k c d) (h' : PairAt s k c' d') : c = c' ∧ d = d' :=
  ⟨Option.some.inj (h.1.symm.trans h'.1), Option.some.inj (h.2.symm.trans h'.2)⟩

theorem exists_pairAt (h : k + 1 < s.length) : ∃ c d, PairAt s k c d :=
  ⟨_, _, List.getElem?_eq_getElem (by omega), List.getElem?_eq_getElem h⟩

/-! ### All pairs of positions -/

/-- **The inner loop** looks for the pair, the other way round. -/
theorem reverseLoop_eq (h : PairAt s k c d) (hm : m < s.length) : ∃ b,
    reverseLoop s k m = pure b ∧ (b = true ↔ ∃ j < m, PairAt s j d c) := by
  induction m with
  | zero =>
    rw [reverseLoop, if_neg (by omega)]
    exact ⟨false, rfl, by simp⟩
  | succ m ih =>
    obtain ⟨b, hrun, hb⟩ := ih (by omega)
    obtain ⟨d', c', h'⟩ := exists_pairAt hm
    have hcast : ((m + 1 : ℕ) : ℤ) - 1 = m := by omega
    have hmore : (∃ j < m + 1, PairAt s j d c) ↔ (∃ j < m, PairAt s j d c) ∨ d' = d ∧ c' = c := by
      constructor
      · rintro ⟨j, hj, hp⟩
        rcases Nat.lt_succ_iff_lt_or_eq.mp hj with hlt | rfl
        · exact .inl ⟨j, hlt, hp⟩
        · exact .inr (h'.unique hp)
      · rintro (⟨j, hj, hp⟩ | ⟨rfl, rfl⟩)
        · exact ⟨j, by omega, hp⟩
        · exact ⟨m, by omega, h'⟩
    rw [reverseLoop, if_pos (by omega), nth_eq h'.2, pure_bind, nth_eq h.1, pure_bind, hcast]
    by_cases hc : c' = c
    · have hnext : nth s ((k : ℤ) + 1) = pure d := nth_eq (i := k + 1) h.2
      rw [if_pos hc, nth_eq h'.1, pure_bind, hnext, pure_bind]
      by_cases hd : d' = d
      · rw [if_pos hd]
        exact ⟨true, rfl, iff_of_true rfl (hmore.mpr (.inr ⟨hd, hc⟩))⟩
      · rw [if_neg hd, hrun]
        exact ⟨b, rfl, hb.trans (hmore.trans (or_iff_left fun h => hd h.1)).symm⟩
    · rw [if_neg hc, hrun]
      exact ⟨b, rfl, hb.trans (hmore.trans (or_iff_left fun h => hc h.2)).symm⟩

/-- **The outer loop** tries the pairs from some position on. -/
theorem startLoop_eq (s : List Char) (k : ℕ) : ∃ b, startLoop s s.length k = pure b ∧
    (b = true ↔ ∃ i, k ≤ i ∧ ∃ c d j, PairAt s i c d ∧ PairAt s j d c) := by
  induction hn : s.length - k generalizing k with
  | zero =>
    rw [startLoop, if_neg (by omega)]
    refine ⟨false, rfl, ?_⟩
    rw [Bool.false_eq_true, false_iff]
    rintro ⟨i, hi, c, d, j, h, -⟩
    have := h.lt
    omega
  | succ n ih =>
    obtain ⟨b, hrun, hb⟩ := ih (k + 1) (by omega)
    rw [startLoop]
    by_cases hlt : k + 1 < s.length
    · obtain ⟨c, d, h⟩ := exists_pairAt hlt
      obtain ⟨b', hrun', hb'⟩ := reverseLoop_eq (m := s.length - 1) h (by omega)
      rw [Nat.cast_sub (by omega), Nat.cast_one] at hrun'
      have hcast : (k : ℤ) + 1 = (k + 1 : ℕ) := by push_cast; rfl
      rw [if_pos (by omega), hrun', pure_bind, hcast]
      cases b' with
      | true =>
        obtain ⟨j, -, hj⟩ := hb'.mp rfl
        exact ⟨true, rfl, iff_of_true rfl ⟨k, le_rfl, c, d, j, h, hj⟩⟩
      | false =>
        refine ⟨b, hrun, hb.trans ⟨?_, ?_⟩⟩
        · rintro ⟨i, hi, hp⟩
          exact ⟨i, by omega, hp⟩
        · rintro ⟨i, hi, c', d', j, hp, hj⟩
          refine ⟨i, Nat.lt_of_le_of_ne hi ?_, c', d', j, hp, hj⟩
          rintro rfl
          obtain ⟨rfl, rfl⟩ := h.unique hp
          have hjl := hj.lt
          exact absurd (hb'.mpr ⟨j, by omega, hj⟩) (by simp)
    · rw [if_neg (by omega)]
      refine ⟨false, rfl, ?_⟩
      rw [Bool.false_eq_true, false_iff]
      rintro ⟨i, hi, c, d, j, h, -⟩
      have := h.lt
      omega

theorem isSubstringPresentMy_eq (s : List Char) :
    ∃ b, isSubstringPresentMy s = pure b ∧ (b = true ↔ Present s) := by
  obtain ⟨b, hrun, hb⟩ := startLoop_eq s 0
  refine ⟨b, hrun, hb.trans ?_⟩
  rw [present_iff]
  constructor
  · rintro ⟨i, -, c, d, j, h, hj⟩
    exact ⟨c, d, i, j, h, hj⟩
  · rintro ⟨c, d, i, j, h, hj⟩
    exact ⟨i, Nat.zero_le i, c, d, j, h, hj⟩

/-! ### The table of pairs -/

variable {vis : ℕ → ℕ → Bool} {g : Grid Bool}

theorem letter_eq (hs : Lowercase s) (hc : s[k]? = some c) : letter c = place c ∧ place c < 26 := by
  obtain ⟨hlo, hhi⟩ := hs c (List.mem_of_getElem? hc)
  have hlo' : 'a'.toNat ≤ c.toNat := hlo
  have hhi' : c.toNat ≤ 'z'.toNat := hhi
  have hz : 'z'.toNat = 'a'.toNat + 25 := rfl
  rw [letter, place]
  omega

/-- Two letters at the same place of the alphabet are equal. -/
theorem place_inj (hs : Lowercase s) {j : ℕ} (hc : s[j]? = some c) (hd : s[k]? = some d)
    (h : place c = place d) : c = d := by
  have hc' : 'a'.toNat ≤ c.toNat := (hs c (List.mem_of_getElem? hc)).1
  have hd' : 'a'.toNat ≤ d.toNat := (hs d (List.mem_of_getElem? hd)).1
  rw [place, place] at h
  exact Char.toNat_inj.mp (by omega)

/-- **What the table holds** when the pairs at the first `m` positions have been recorded. -/
def Recorded (s : List Char) (vis : ℕ → ℕ → Bool) (m : ℕ) (g : Grid Bool) : Prop :=
  g.rows = 26 ∧ g.cols = 26 ∧ ∀ x y, g.data x y = true ↔
    vis x y = true ∨ ∃ k < m, ∃ c d, PairAt s k c d ∧ place c = x ∧ place d = y

/-- **One more pair** is recorded. -/
theorem Recorded.set (hg : Recorded s vis m g) (h : PairAt s m c d) :
    Recorded s vis (m + 1) (g.set (place c) (place d) true) := by
  refine ⟨hg.1, hg.2.1, fun x y => ?_⟩
  rw [Grid.data_set]
  split_ifs with hxy
  · exact iff_of_true rfl (.inr ⟨m, Nat.lt_succ_self m, c, d, h, hxy.1.symm, hxy.2.symm⟩)
  · rw [hg.2.2]
    refine or_congr_right ⟨?_, ?_⟩
    · rintro ⟨k, hk, hp⟩
      exact ⟨k, by omega, hp⟩
    · rintro ⟨k, hk, c', d', hp, hx, hy⟩
      refine ⟨k, Nat.lt_of_le_of_ne (Nat.lt_succ_iff.mp hk) ?_, c', d', hp, hx, hy⟩
      rintro rfl
      obtain ⟨rfl, rfl⟩ := h.unique hp
      exact hxy ⟨hx.symm, hy.symm⟩

/-- The pair is found, the other way round. -/
theorem Recorded.data_iff (hg : Recorded s vis m g) (hs : Lowercase s) (h : PairAt s k c d) :
    g.data (place d) (place c) = true ↔
      vis (place d) (place c) = true ∨ ∃ j < m, PairAt s j d c := by
  rw [hg.2.2]
  refine or_congr_right ⟨?_, ?_⟩
  · rintro ⟨j, hj, d', c', hp, hd, hc⟩
    obtain rfl := place_inj hs hp.1 h.2 hd
    obtain rfl := place_inj hs hp.2 h.1 hc
    exact ⟨j, hj, hp⟩
  · rintro ⟨j, hj, hp⟩
    exact ⟨j, hj, d, c, hp, rfl, rfl⟩

/-- **The loop** looks up the pairs from some position on. -/
theorem pairLoop_eq (hs : Lowercase s) (hg : Recorded s vis m g) : ∃ b,
    pairLoop s (m + 1 : ℕ) g = pure b ∧ (b = true ↔ ∃ k, m ≤ k ∧ ∃ c d, PairAt s k c d ∧
      (vis (place d) (place c) = true ∨ ∃ j ≤ k, PairAt s j d c)) := by
  induction hn : s.length - m generalizing m g with
  | zero =>
    rw [pairLoop, if_neg (by omega)]
    refine ⟨false, rfl, ?_⟩
    rw [Bool.false_eq_true, false_iff]
    rintro ⟨k, hk, c, d, h, -⟩
    have := h.lt
    omega
  | succ n ih =>
    rw [pairLoop]
    by_cases hlt : m + 1 < s.length
    · obtain ⟨c, d, h⟩ := exists_pairAt hlt
      obtain ⟨hc, hc'⟩ := letter_eq hs h.1
      obtain ⟨hd, hd'⟩ := letter_eq hs h.2
      have hprev : ((m + 1 : ℕ) : ℤ) - 1 = m := by omega
      have hnext : ((m + 1 : ℕ) : ℤ) + 1 = (m + 1 + 1 : ℕ) := by omega
      have hset := hg.set h
      rw [if_pos (by omega), hprev, nth_eq h.1, pure_bind, nth_eq h.2, pure_bind, hc, hd]
      dsimp only
      rw [Grid.put_eq (by rw [hg.1]; exact hc') (by rw [hg.2.1]; exact hd'), pure_bind,
        Grid.get_eq (by rw [hset.1]; exact hd') (by rw [hset.2.1]; exact hc'), pure_bind]
      have hfound := hset.data_iff hs h
      cases hb : (g.set (place c) (place d) true).data (place d) (place c) with
      | true =>
        refine ⟨true, rfl, iff_of_true rfl ⟨m, le_rfl, c, d, h, ?_⟩⟩
        refine (hfound.mp hb).imp id ?_
        rintro ⟨j, hj, hp⟩
        exact ⟨j, by omega, hp⟩
      | false =>
        obtain ⟨b, hrun, hb'⟩ := ih hset (by omega)
        rw [if_neg Bool.false_ne_true, hnext, hrun]
        refine ⟨b, rfl, hb'.trans ⟨?_, ?_⟩⟩
        · rintro ⟨k, hk, hp⟩
          exact ⟨k, by omega, hp⟩
        · rintro ⟨k, hk, c', d', hp, hseen⟩
          refine ⟨k, Nat.lt_of_le_of_ne hk ?_, c', d', hp, hseen⟩
          rintro rfl
          obtain ⟨rfl, rfl⟩ := h.unique hp
          rw [hb] at hfound
          refine Bool.false_ne_true (hfound.mpr (hseen.imp id ?_))
          rintro ⟨j, hj, hp⟩
          exact ⟨j, by omega, hp⟩
    · rw [if_neg (by omega)]
      refine ⟨false, rfl, ?_⟩
      rw [Bool.false_eq_true, false_iff]
      rintro ⟨k, hk, c, d, h, -⟩
      have := h.lt
      omega

/-- **What `isSubstringPresent` returns**: whether the answer is yes, or the table says so at
first. -/
theorem isSubstringPresent_eq (hs : Lowercase s) (vis : ℕ → ℕ → Bool) :
    ∃ b, isSubstringPresent s vis = pure b ∧ (b = true ↔
      Present s ∨ ∃ c d, [c, d] <:+: s ∧ vis (place d) (place c) = true) := by
  have hstart : Recorded s vis 0 { data := vis, rows := 26, cols := 26 } :=
    ⟨rfl, rfl, fun x y => (or_iff_left fun ⟨k, hk, _⟩ => Nat.not_lt_zero k hk).symm⟩
  obtain ⟨b, hrun, hb⟩ := pairLoop_eq hs hstart
  refine ⟨b, hrun, hb.trans ⟨?_, ?_⟩⟩
  · rintro ⟨k, -, c, d, h, hvis | ⟨j, -, hj⟩⟩
    · exact .inr ⟨c, d, pair_infix_iff.mpr ⟨k, h⟩, hvis⟩
    · exact .inl (present_iff.mpr ⟨d, c, j, k, hj, h⟩)
  · rintro (h | ⟨c, d, h, hvis⟩)
    · obtain ⟨c, d, j, k, hj, hk⟩ := present_iff.mp h
      -- the later one of the two pairs is looked up when the other one has been recorded
      rcases le_total j k with hle | hle
      · exact ⟨k, Nat.zero_le k, d, c, hk, .inr ⟨j, hle, hj⟩⟩
      · exact ⟨j, Nat.zero_le j, c, d, hj, .inr ⟨k, hle, hk⟩⟩
    · obtain ⟨k, hk⟩ := pair_infix_iff.mp h
      exact ⟨k, Nat.zero_le k, c, d, hk, .inl hvis⟩

/-- Both versions return the right answer. -/
def Agree (s : List Char) (vis : ℕ → ℕ → Bool) : Prop :=
  ∃ b, isSubstringPresent s vis = pure b ∧ isSubstringPresentMy s = pure b ∧ (b = true ↔ Present s)

theorem lowercase_ab : Lowercase ['a', 'b'] := by
  simp [Lowercase, Char.le_def]

end SubstringPresent

end Candcpp
