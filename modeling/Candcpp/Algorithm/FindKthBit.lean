import Candcpp.Cpp.Tally

/-!
# A bit of a mirrored string

The three ways in which `1545.cpp` finds a character of the string that starts as `"0"` and is again
and again followed by `'1'` and its own mirror image, inverted. `dfs` builds the string; `dfs2` and
`findKthBit2` work on the position alone, and return from the mirror image to the string in front of
it.

The word that is meant is `Candcpp.FindKthBit.word`. What stands at a position of a mirrored word is
in `Candcpp.FindKthBit.getElem?_mirrored_right` and the two lemmas in front of it, for any letters
and any inversion; `Candcpp.FindKthBit.word_cases` is what both recursions follow. **All three find
the same character** (`Candcpp.FindKthBit.same_bit`).

The arithmetic is exact: a power of two is an integer, and is not rounded.
-/

namespace Candcpp

open Cpp

namespace FindKthBit

/-! ### The code -/

/-- `'0'`. -/
abbrev zero : Int8 := 48

/-- `'1'`. -/
abbrev one : Int8 := 49

/-- `for (int i = 0; i < s.size(); ++i)` of `invert`, which leaves behind `s`. -/
def invertLoop (s : List Int8) (i : ℤ) : Exec (List Int8) := do
  let +zeta invertLoop : type_of% invertLoop := by apply invertLoop
  if i < s.length then
    let c ← nth s i
    let s ← setNth s i (if c = zero then one else zero)
    invertLoop s (i + 1)
  else
    pure s
partial_fixpoint

/-- `invert`, of a string. -/
def invert (s : List Int8) : Exec (List Int8) := invertLoop s 0

/-- `dfs`. -/
def dfs (n : ℤ) : Exec (List Int8) := do
  let +zeta dfs : type_of% dfs := by apply dfs
  if n = 1 then
    pure [zero]
  else
    let s ← dfs (n - 1)
    let t ← invert s
    pure (s ++ [one] ++ t.reverse)
partial_fixpoint

/-- `(int)pow(2, n)`; the fraction that is the power of a negative number is rounded to 0. -/
def pow2 (n : ℤ) : ℤ := if 0 ≤ n then 2 ^ n.toNat else 0

/-- `dfs2`. -/
def dfs2 (n k : ℤ) : Exec Int8 := do
  let +zeta dfs2 : type_of% dfs2 := by apply dfs2
  if k = 1 then
    pure zero
  else
    let before := pow2 (n - 1)
    let len := pow2 n
    if k = before then
      pure one
    else if k < before then
      dfs2 (n - 1) k
    else
      let c ← dfs2 (n - 1) (len - k)
      pure (if c = one then zero else one)
partial_fixpoint

/-- `findKthBit`. -/
def findKthBit (n k : ℤ) : Exec Int8 := dfs2 n k

/-- `invert`, of a character. -/
def invertBit (bit : Int8) : Int8 := Int8.ofInt (code '0' + code '1' - bit.toInt)

/-- `1 << n`, which is not defined for a negative `n`. -/
def shift (n : ℤ) : Exec ℤ := if 0 ≤ n then pure (2 ^ n.toNat) else throw .overflow

/-- `findKthBit2`. -/
def findKthBit2 (n k : ℤ) : Exec Int8 := do
  let +zeta findKthBit2 : type_of% findKthBit2 := by apply findKthBit2
  if k = 1 then
    pure zero
  else
    let mid ← shift (n - 1)
    if k = mid then
      pure one
    else if k < mid then
      findKthBit2 (n - 1) k
    else
      let c ← findKthBit2 (n - 1) (mid * 2 - k)
      pure (invertBit c)
partial_fixpoint

/-! ### Mirrored words -/

section Mirrored

variable {α : Type} (f : α → α) (m : α) (w : List α) {k : ℕ}

/-- **A word in front of its mirror image**, every letter of which is inverted. -/
def mirrored : List α := w ++ m :: (w.map f).reverse

@[simp] theorem length_mirrored : (mirrored f m w).length = 2 * w.length + 1 := by
  rw [mirrored, List.length_append, List.length_cons, List.length_reverse, List.length_map]
  omega

theorem getElem?_mirrored_left (hk : k < w.length) : (mirrored f m w)[k]? = w[k]? :=
  List.getElem?_append_left hk

theorem getElem?_mirrored_middle : (mirrored f m w)[w.length]? = some m := by
  rw [mirrored, List.getElem?_append_right le_rfl, Nat.sub_self, List.getElem?_cons_zero]

/-- **Behind the middle** stands the inverted letter of the mirrored position. -/
theorem getElem?_mirrored_right (hk : w.length < k) (hle : k ≤ 2 * w.length) :
    (mirrored f m w)[k]? = (w[2 * w.length - k]?).map f := by
  obtain ⟨d, rfl⟩ := Nat.exists_eq_add_of_lt hk
  have hd : d < (w.map f).length := by
    rw [List.length_map]
    omega
  rw [mirrored, List.getElem?_append_right (by omega),
    show w.length + d + 1 - w.length = d + 1 by omega, List.getElem?_cons_succ,
    List.getElem?_reverse hd, List.getElem?_map, List.length_map]
  congr 2
  omega

end Mirrored

/-! ### The string -/

/-- The other of the two characters. -/
def flip (c : Int8) : Int8 := if c = zero then one else zero

/-- **The strings** of the problem, of which the first one has the number 1. -/
def word : ℕ → List Int8
  | 0 => []
  | 1 => [zero]
  | n + 2 => mirrored flip one (word (n + 1))

variable {n k : ℕ} {c : Int8}

theorem length_word (n : ℕ) : (word (n + 1)).length + 1 = 2 ^ (n + 1) := by
  induction n with
  | zero => rfl
  | succ n ih =>
    rw [word, length_mirrored, Nat.pow_succ, ← ih]
    ring

/-- Every character is `'0'` or `'1'`. -/
theorem bit_of_mem (hc : c ∈ word (n + 1)) : c = zero ∨ c = one := by
  induction n generalizing c with
  | zero => exact .inl (List.mem_singleton.mp hc)
  | succ n ih =>
    rw [word, mirrored, List.mem_append, List.mem_cons, List.mem_reverse, List.mem_map] at hc
    rcases hc with hc | rfl | ⟨d, -, rfl⟩
    · exact ih hc
    · exact .inr rfl
    · rw [flip]
      split_ifs
      · exact .inr rfl
      · exact .inl rfl

/-- The first character is `'0'`. -/
theorem word_first (n : ℕ) : (word (n + 1))[0]? = some zero := by
  induction n with
  | zero => rfl
  | succ n ih =>
    have hlen := length_word n
    have hpos := Nat.two_pow_pos n
    rw [word, getElem?_mirrored_left _ _ _ (by omega), ih]

/-- **Where a character comes from**: the string in front of the middle, the middle, or the mirrored
position of the string in front. -/
theorem word_cases (hk : 1 ≤ k) (hc : (word (n + 2))[k - 1]? = some c) :
    (k < 2 ^ (n + 1) ∧ (word (n + 1))[k - 1]? = some c) ∨ (k = 2 ^ (n + 1) ∧ c = one) ∨
      (2 ^ (n + 1) < k ∧ k < 2 ^ (n + 2) ∧
        ∃ d, (word (n + 1))[2 ^ (n + 2) - k - 1]? = some d ∧ c = flip d) := by
  have hlen := length_word n
  obtain ⟨hlt, -⟩ := List.getElem?_eq_some_iff.mp hc
  rw [word, length_mirrored] at hlt
  rw [word] at hc
  rcases lt_trichotomy k (2 ^ (n + 1)) with h | h | h
  · rw [getElem?_mirrored_left _ _ _ (by omega)] at hc
    exact .inl ⟨h, hc⟩
  · rw [show k - 1 = (word (n + 1)).length by omega, getElem?_mirrored_middle] at hc
    exact .inr (.inl ⟨h, (Option.some.inj hc).symm⟩)
  · rw [getElem?_mirrored_right _ _ _ (by omega) (by omega)] at hc
    obtain ⟨d, hd, rfl⟩ := Option.map_eq_some_iff.mp hc
    have hpow : 2 ^ (n + 2) = 2 * 2 ^ (n + 1) := Nat.pow_succ'
    refine .inr (.inr ⟨h, by omega, d, ?_, rfl⟩)
    rw [← hd]
    congr 1
    omega

/-! ### The string is built -/

/-- **The loop inverts** what it has not visited. -/
theorem invertLoop_eq (pre s : List Int8) :
    invertLoop (pre ++ s) pre.length = pure (pre ++ s.map flip) := by
  induction s generalizing pre with
  | nil => rw [invertLoop, if_neg (by simp), List.map_nil]
  | cons c s ih =>
    have hc : (pre ++ c :: s)[pre.length]? = some c := by
      rw [List.getElem?_append_right le_rfl, Nat.sub_self, List.getElem?_cons_zero]
    have hlt : pre.length < (pre ++ c :: s).length := by
      rw [List.length_append, List.length_cons]
      omega
    have hset : (pre ++ c :: s).set pre.length (flip c) = pre ++ [flip c] ++ s := by
      rw [List.set_append_right _ _ le_rfl, Nat.sub_self, List.set_cons_zero, List.append_assoc,
        List.singleton_append]
    have hrest := ih (pre ++ [flip c])
    rw [List.length_append, List.length_singleton, Nat.cast_succ] at hrest
    rw [invertLoop, if_pos (by omega), nth_eq hc, pure_bind, setNth_eq hlt, pure_bind, ← flip, hset,
      hrest, List.append_assoc, List.singleton_append, List.map_cons]

/-- **The string is the word.** -/
theorem dfs_eq (n : ℕ) : dfs (n + 1 : ℕ) = pure (word (n + 1)) := by
  induction n with
  | zero => rw [dfs, if_pos (by norm_num), word]
  | succ n ih =>
    have hinvert := invertLoop_eq [] (word (n + 1))
    rw [dfs, if_neg (by omega), show ((n + 1 + 1 : ℕ) : ℤ) - 1 = (n + 1 : ℕ) by omega, ih,
      pure_bind, invert]
    rw [List.nil_append, List.nil_append, List.length_nil, Nat.cast_zero] at hinvert
    rw [hinvert, pure_bind, List.append_assoc, List.singleton_append, word, mirrored]

/-! ### The position alone -/

/-- **What a recursion on the position does**: it ends at the first position and in the middle, goes
on in the string in front of the middle, and comes back to it from behind with the other
character. -/
structure Recursion (find : ℤ → ℤ → Exec Int8) : Prop where
  first : ∀ n, find n 1 = pure zero
  middle : ∀ n : ℕ, find (n + 2 : ℕ) (2 ^ (n + 1) : ℕ) = pure one
  before : ∀ n k : ℕ, k ≠ 1 → k < 2 ^ (n + 1) → find (n + 2 : ℕ) k = find (n + 1 : ℕ) k
  behind : ∀ (n k : ℕ) (d : Int8), 2 ^ (n + 1) < k → k < 2 ^ (n + 2) → d = zero ∨ d = one →
    find (n + 1 : ℕ) (2 ^ (n + 2) - k : ℕ) = pure d → find (n + 2 : ℕ) k = pure (flip d)

/-- **Such a recursion finds the character.** -/
theorem Recursion.finds {find : ℤ → ℤ → Exec Int8} (h : Recursion find) (hk : 1 ≤ k)
    (hc : (word (n + 1))[k - 1]? = some c) : find (n + 1 : ℕ) k = pure c := by
  induction n generalizing k c with
  | zero =>
    obtain ⟨hlt, -⟩ := List.getElem?_eq_some_iff.mp hc
    rw [word, List.length_singleton] at hlt
    obtain rfl : k = 1 := by omega
    rw [Nat.sub_self, word_first] at hc
    rw [Nat.cast_one, h.first, Option.some.inj hc]
  | succ n ih =>
    by_cases hone : k = 1
    · rw [hone, Nat.sub_self, word_first] at hc
      rw [hone, Nat.cast_one, h.first, Option.some.inj hc]
    · rcases word_cases hk hc with ⟨hlt, hbefore⟩ | ⟨rfl, rfl⟩ | ⟨hlt, hle, d, hd, rfl⟩
      · rw [h.before n k hone hlt]
        exact ih hk hbefore
      · exact h.middle n
      · exact h.behind n k d hlt hle (bit_of_mem (List.mem_of_getElem? hd)) (ih (by omega) hd)

theorem pow2_natCast (n : ℕ) : pow2 n = (2 ^ n : ℕ) := by
  rw [pow2, if_pos (Int.natCast_nonneg n), Int.toNat_natCast, Nat.cast_pow, Nat.cast_ofNat]

theorem shift_natCast (n : ℕ) : shift n = pure ((2 ^ n : ℕ) : ℤ) := by
  rw [shift, if_pos (Int.natCast_nonneg n), Int.toNat_natCast, Nat.cast_pow, Nat.cast_ofNat]

theorem cast_pred (n : ℕ) : ((n + 2 : ℕ) : ℤ) - 1 = (n + 1 : ℕ) := by
  omega

/-- No power is 1 but the first. -/
theorem middle_ne_one (n : ℕ) : ((2 ^ (n + 1) : ℕ) : ℤ) ≠ 1 := by
  have hpos := Nat.two_pow_pos n
  rw [Nat.pow_succ]
  omega

/-- The first recursion. -/
theorem recursion_dfs2 : Recursion dfs2 where
  first n := by rw [dfs2, if_pos rfl]
  middle n := by
    rw [dfs2, if_neg (middle_ne_one n), cast_pred]
    dsimp only
    rw [pow2_natCast, if_pos rfl]
  before n k hk hlt := by
    rw [dfs2, if_neg (Nat.cast_eq_one.not.mpr hk), cast_pred]
    dsimp only
    rw [pow2_natCast, if_neg (Nat.cast_inj.not.mpr hlt.ne), if_pos (Nat.cast_lt.mpr hlt)]
  behind n k d hlt hle hd hrun := by
    have hk : (k : ℤ) ≠ 1 := fun h => by
      have hpos := Nat.two_pow_pos (n + 1)
      omega
    rw [dfs2, if_neg hk, cast_pred]
    dsimp only
    rw [pow2_natCast, pow2_natCast, if_neg (Nat.cast_inj.not.mpr hlt.ne'),
      if_neg (Nat.cast_lt.not.mpr hlt.not_gt), ← Nat.cast_sub hle.le, hrun, pure_bind]
    rcases hd with rfl | rfl
    · rfl
    · rfl

/-- The second recursion. -/
theorem recursion_findKthBit2 : Recursion findKthBit2 where
  first n := by rw [findKthBit2, if_pos rfl]
  middle n := by
    rw [findKthBit2, if_neg (middle_ne_one n), cast_pred, shift_natCast, pure_bind, if_pos rfl]
  before n k hk hlt := by
    rw [findKthBit2, if_neg (Nat.cast_eq_one.not.mpr hk), cast_pred, shift_natCast, pure_bind,
      if_neg (Nat.cast_inj.not.mpr hlt.ne), if_pos (Nat.cast_lt.mpr hlt)]
  behind n k d hlt hle hd hrun := by
    have hk : (k : ℤ) ≠ 1 := fun h => by
      have hpos := Nat.two_pow_pos (n + 1)
      omega
    have hmirror : ((2 ^ (n + 1) : ℕ) : ℤ) * 2 - k = (2 ^ (n + 2) - k : ℕ) := by
      rw [Nat.cast_sub hle.le, Nat.pow_succ 2 (n + 1), Nat.cast_mul, Nat.cast_ofNat]
    rw [findKthBit2, if_neg hk, cast_pred, shift_natCast, pure_bind,
      if_neg (Nat.cast_inj.not.mpr hlt.ne'), if_neg (Nat.cast_lt.not.mpr hlt.not_gt), hmirror, hrun,
      pure_bind]
    rcases hd with rfl | rfl
    · rfl
    · rfl

/-- **All three find the same character**: the one at the position `k`, from 1 on, of the string
that `dfs` builds. -/
theorem same_bit (hn : 1 ≤ n) (hk : 1 ≤ k) (hkn : k ≤ 2 ^ n - 1) :
    ∃ c, dfs n = pure (word n) ∧ nth (word n) ((k : ℤ) - 1) = pure c ∧ dfs2 n k = pure c ∧
      findKthBit n k = pure c ∧ findKthBit2 n k = pure c := by
  obtain ⟨n, rfl⟩ := Nat.exists_eq_add_of_le' hn
  have hlen := length_word n
  have hc : (word (n + 1))[k - 1]? = some (word (n + 1))[k - 1] :=
    List.getElem?_eq_getElem (by omega)
  have hnth := nth_eq hc
  rw [Nat.cast_sub hk, Nat.cast_one] at hnth
  have hdfs2 := recursion_dfs2.finds hk hc
  exact ⟨_, dfs_eq n, hnth, hdfs2, hdfs2, recursion_findKthBit2.finds hk hc⟩

/-- The last character of the third string. -/
theorem same_bit_seven : ∃ c, dfs 3 = pure (word 3) ∧ nth (word 3) 6 = pure c ∧
    dfs2 3 7 = pure c ∧ findKthBit 3 7 = pure c ∧ findKthBit2 3 7 = pure c :=
  same_bit (n := 3) (k := 7) (by decide) (by decide) (by decide)

end FindKthBit

end Candcpp
