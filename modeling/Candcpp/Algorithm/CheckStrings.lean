import Candcpp.Algorithm.FindAnagrams
import Candcpp.Cpp.Grid
import Candcpp.Order.Exchanges

/-!
# Strings that swaps over even distances make equal

The two versions of `2840.cpp`, which are given two strings of the same length. In the first one two
characters may be swapped if their positions differ by an even number, as often as one likes. Can it
be made equal to the second one?

`checkStrings` puts the characters at the odd and at the even positions of each string into strings
of their own, and sorts these. `checkStrings_ling` counts the characters in arrays whose rows are
for the even and for the odd positions. **Both answer the question**
(`Candcpp.CheckStrings.same_answer`): a swap keeps the characters at the even positions and those at
the odd ones, and nothing else (`Candcpp.exchanges_iff`).

A position is not bounded, since a string has no more characters than an `int` counts.
-/

namespace Candcpp

open Cpp FindAnagrams

namespace CheckStrings

/-! ### The code -/

/-- `odd_set1`, `odd_set2`, `even_set1` and `even_set2`. -/
structure Sets where
  oddSet1 : List Int8
  oddSet2 : List Int8
  evenSet1 : List Int8
  evenSet2 : List Int8
  deriving DecidableEq

/-- The turn of the loop of `checkStrings` for the position `i`. -/
def extract (s1 s2 : List Int8) (t : Sets) (i : ℕ) : Exec Sets :=
  if i % 2 = 1 then do
    let c ← nth s1 i
    let d ← nth s2 i
    pure { t with oddSet1 := t.oddSet1 ++ [c], oddSet2 := t.oddSet2 ++ [d] }
  else do
    let c ← nth s1 i
    let d ← nth s2 i
    pure { t with evenSet1 := t.evenSet1 ++ [c], evenSet2 := t.evenSet2 ++ [d] }

/-- `checkStrings`. -/
def checkStrings (s1 s2 : List Int8) : Exec Bool := do
  let t ← (List.range s1.length).foldlM (extract s1 s2) ⟨[], [], [], []⟩
  pure (sortString t.oddSet1 = sortString t.oddSet2 ∧
    sortString t.evenSet1 = sortString t.evenSet2)

/-- `cnt[i][j]++`. -/
def increment (cnt : Grid ℤ) (i j : ℤ) : Exec (Grid ℤ) := do
  let x ← cnt.get i j
  cnt.put i j (x + 1)

/-- The turn of the loop of `checkStrings_ling` for the position `i`. -/
def count (s1 s2 : List Int8) (cnt : Grid ℤ × Grid ℤ) (i : ℕ) : Exec (Grid ℤ × Grid ℤ) := do
  let c ← nth s1 i
  let cnt1 ← increment cnt.1 (i % 2) (c.toInt - code 'a')
  let d ← nth s2 i
  let cnt2 ← increment cnt.2 (i % 2) (d.toInt - code 'a')
  pure (cnt1, cnt2)

/-- `memcmp(cnt1, cnt2, sizeof(cnt1)) == 0`, where the arrays have two rows of 26 elements. -/
def sameMemory (cnt1 cnt2 : Grid ℤ) : Bool :=
  (List.range 2).all fun i => (List.range 26).all fun j => cnt1.data i j = cnt2.data i j

/-- `checkStrings_ling`. -/
def checkStringsLing (s1 s2 : List Int8) : Exec Bool := do
  let cnt ← (List.range s1.length).foldlM (count s1 s2) (Grid.fill 2 26 0, Grid.fill 2 26 0)
  pure (sameMemory cnt.1 cnt.2)

/-! ### The swaps -/

/-- **Two characters are swapped** whose positions differ by an even number. -/
def Swap (s s' : List Int8) : Prop :=
  ∃ (i j : ℕ) (x y : Int8), s[i]? = some x ∧ s[j]? = some y ∧ Even ((i : ℤ) - j) ∧
    s' = (s.set i y).set j x

/-- The class of a position. -/
def parity (i : ℕ) : ℕ := i % 2

variable {s s' s1 s2 : List Int8} {i : ℕ} {c d : Int8} {t : Sets} {cnt : Grid ℤ}

theorem swap_iff : Swap s s' ↔ Exchange parity s s' := by
  constructor
  · rintro ⟨i, j, x, y, hi, hj, heven, rfl⟩
    refine Exchange.mk s hi hj ?_
    rw [Int.even_sub, Int.even_coe_nat, Int.even_coe_nat, Nat.even_iff, Nat.even_iff] at heven
    rw [parity, parity]
    omega
  · rintro ⟨hi, hj, hc⟩
    refine ⟨_, _, _, _, hi, hj, ?_, rfl⟩
    rw [parity, parity] at hc
    rw [Int.even_sub, Int.even_coe_nat, Int.even_coe_nat, Nat.even_iff, Nat.even_iff, hc]

/-- **What can be reached** is what has the same characters at the even and at the odd positions. -/
theorem swaps_iff (hlen : s1.length = s2.length) : Relation.ReflTransGen Swap s1 s2 ↔
    (part parity 0 s1).Perm (part parity 0 s2) ∧ (part parity 1 s1).Perm (part parity 1 s2) := by
  have hswap : Swap = Exchange parity := by
    funext s s'
    exact propext swap_iff
  rw [hswap]
  refine (exchanges_iff hlen).trans ?_
  constructor
  · exact fun h => ⟨h 0, h 1⟩
  · rintro ⟨h0, h1⟩ k
    match k with
    | 0 => exact h0
    | 1 => exact h1
    | k + 2 =>
      have hnil : ∀ s : List Int8, part parity (k + 2) s = [] := by
        refine fun s => List.eq_nil_iff_forall_not_mem.mpr fun x hx => ?_
        obtain ⟨i, -, hi⟩ := mem_part.mp hx
        rw [parity] at hi
        omega
      rw [hnil, hnil]

/-! ### The first version -/

/-- The strings after the characters of `s1` and `s2` have been put into them. -/
def sets (s1 s2 : List Int8) : Sets :=
  ⟨part parity 1 s1, part parity 1 s2, part parity 0 s1, part parity 0 s2⟩

theorem part_take_succ (hc : s[i]? = some c) (k : ℕ) : part parity k (s.take (i + 1)) =
    if i % 2 = k then part parity k (s.take i) ++ [c] else part parity k (s.take i) := by
  have hlen := List.length_take_of_le (List.getElem?_eq_some_iff.mp hc).1.le
  have htake : s.take (i + 1) = s.take i ++ [c] := by
    rw [List.take_add_one, hc]
    rfl
  rw [htake, part_concat, hlen]
  rfl

/-- **A turn of the loop** puts in the characters at its position. -/
theorem extract_eq (hc : s1[i]? = some c) (hd : s2[i]? = some d) :
    extract s1 s2 (sets (s1.take i) (s2.take i)) i =
      pure (sets (s1.take (i + 1)) (s2.take (i + 1))) := by
  rw [extract, nth_eq hc, nth_eq hd, sets, sets, part_take_succ hc, part_take_succ hc,
    part_take_succ hd, part_take_succ hd]
  rcases Nat.mod_two_eq_zero_or_one i with h | h
  · rw [h]
    rfl
  · rw [h]
    rfl

/-- **The first version** answers the question. -/
theorem checkStrings_eq (hlen : s1.length = s2.length) : ∃ b,
    checkStrings s1 s2 = pure b ∧ (b = true ↔ Relation.ReflTransGen Swap s1 s2) := by
  obtain ⟨t, hrun, ht⟩ := foldlM_range_eq (f := extract s1 s2) (s := ⟨[], [], [], []⟩)
    (n := s1.length) (fun i t => t = sets (s1.take i) (s2.take i)) rfl (by
      rintro i hi _ rfl
      exact ⟨_, extract_eq (List.getElem?_eq_getElem hi)
        (List.getElem?_eq_getElem (hlen ▸ hi)), rfl⟩)
  rw [List.take_length, hlen, List.take_length] at ht
  subst ht
  refine ⟨_, by rw [checkStrings, hrun, pure_bind], ?_⟩
  rw [decide_eq_true_iff, swaps_iff hlen, and_comm]
  exact and_congr sortString_eq_iff sortString_eq_iff

/-! ### The second version -/

/-- The array has the counts of the characters of `s`: a row for each class of positions. -/
structure Counted (s : List Int8) (cnt : Grid ℤ) : Prop where
  rows : cnt.rows = 2
  cols : cnt.cols = 26
  data : ∀ k < 2, ∀ x < 26, cnt.data k x = (counts (part parity k s)).data x

/-- **A character is counted** in the row of its position. -/
theorem Counted.increment (h : Counted (s.take i) cnt) (hc : s[i]? = some c)
    (hlow : 97 ≤ c.toInt ∧ c.toInt ≤ 122) : ∃ cnt',
      increment cnt (i % 2) (c.toInt - code 'a') = pure cnt' ∧ Counted (s.take (i + 1)) cnt' := by
  obtain ⟨m, hm⟩ := Int.eq_ofNat_of_zero_le (sub_nonneg.mpr hlow.1)
  have hrow : i % 2 < cnt.rows := by
    rw [h.rows]
    exact Nat.mod_lt i Nat.two_pos
  have hcol : m < cnt.cols := by
    rw [h.cols]
    omega
  rw [code_lower_a, hm, ← Nat.cast_ofNat (R := ℤ) (n := 2), ← Int.natCast_mod,
    CheckStrings.increment, Grid.get_eq hrow hcol, pure_bind, Grid.put_eq hrow hcol]
  refine ⟨_, rfl, h.rows, h.cols, fun k hk x hx => ?_⟩
  rw [Grid.data_set, h.data k hk x hx, part_take_succ hc,
    h.data (i % 2) (Nat.mod_lt i Nat.two_pos) m (by omega)]
  by_cases hki : i % 2 = k
  · rw [if_pos hki, ← hki]
    show (if _ then tally _ _ + 1 else tally _ _) = tally _ _
    rw [tally_concat]
    by_cases hxm : x = m
    · rw [if_pos ⟨rfl, hxm⟩, if_pos (by omega), hxm]
    · rw [if_neg fun h => hxm h.2, if_neg (by omega), add_zero]
  · rw [if_neg hki, if_neg fun h => hki h.1.symm]

/-- **The arrays are the same** exactly if the strings have the same characters in each class. -/
theorem sameMemory_iff {cnt1 cnt2 : Grid ℤ} (h1 : Counted s1 cnt1) (h2 : Counted s2 cnt2)
    (hs1 : Lowercase s1) (hs2 : Lowercase s2) : sameMemory cnt1 cnt2 = true ↔
      ∀ k < 2, (part parity k s1).Perm (part parity k s2) := by
  have hlower : ∀ {s : List Int8}, Lowercase s → ∀ k, Lowercase (part parity k s) := by
    intro s hs k c hc
    obtain ⟨i, hi, -⟩ := mem_part.mp hc
    exact hs c (List.mem_of_getElem? hi)
  rw [sameMemory, List.all_eq_true]
  simp only [List.mem_range, List.all_eq_true, decide_eq_true_eq]
  refine forall₂_congr fun k hk => ?_
  rw [← toList_counts_eq_iff (hlower hs1 k) (hlower hs2 k), counts, counts, toList_table_eq_iff]
  refine forall₂_congr fun x hx => ?_
  rw [h1.data k hk x hx, h2.data k hk x hx]
  rfl

/-- **The second version** answers the question. -/
theorem checkStringsLing_eq (hs1 : Lowercase s1) (hs2 : Lowercase s2)
    (hlen : s1.length = s2.length) : ∃ b, checkStringsLing s1 s2 = pure b ∧
      (b = true ↔ Relation.ReflTransGen Swap s1 s2) := by
  have hfill : Counted [] (Grid.fill 2 26 0) := ⟨rfl, rfl, fun k _ x _ => rfl⟩
  obtain ⟨cnt, hrun, h1, h2⟩ := foldlM_range_eq (f := count s1 s2)
    (s := (Grid.fill 2 26 0, Grid.fill 2 26 0)) (n := s1.length)
    (fun i cnt => Counted (s1.take i) cnt.1 ∧ Counted (s2.take i) cnt.2) ⟨hfill, hfill⟩ (by
      rintro i hi ⟨cnt1, cnt2⟩ ⟨h1, h2⟩
      have hc : s1[i]? = some s1[i] := List.getElem?_eq_getElem hi
      have hd : s2[i]? = some (s2[i]) := List.getElem?_eq_getElem (hlen ▸ hi)
      obtain ⟨cnt1', hrun1, h1'⟩ := h1.increment hc (hs1 _ (List.getElem_mem _))
      obtain ⟨cnt2', hrun2, h2'⟩ := h2.increment hd (hs2 _ (List.getElem_mem _))
      exact ⟨(cnt1', cnt2'), by rw [count, nth_eq hc, pure_bind, hrun1, pure_bind, nth_eq hd,
        pure_bind, hrun2, pure_bind], h1', h2'⟩)
  rw [List.take_length] at h1
  rw [hlen, List.take_length] at h2
  refine ⟨_, by rw [checkStringsLing, hrun, pure_bind], ?_⟩
  rw [sameMemory_iff h1 h2 hs1 hs2, swaps_iff hlen]
  constructor
  · exact fun h => ⟨h 0 Nat.two_pos, h 1 Nat.one_lt_two⟩
  · rintro ⟨h0, h1⟩ k hk
    interval_cases k
    · exact h0
    · exact h1

/-! ### Both versions -/

end CheckStrings

end Candcpp
