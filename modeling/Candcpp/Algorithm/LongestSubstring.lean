import Candcpp.Cpp.Exec
import Candcpp.Order.Windows

/-!
# The longest substring without a repeated character

`lengthOfLongestSubstring` of `3.cpp`, which moves a window over a string. In `hash` it counts the
characters of the window; when the one that comes in is there twice, the window loses characters at
its left end until it is not.

The window is the longest one that ends where it does and repeats nothing, and the greatest length
so far is kept (`Candcpp.LongestSubstring.slideLoop_eq`). But a character is the index in `hash`
itself, and a `char` is signed: one from `128` on is a negative index. So **the function is right**
exactly if the string has no such character
(`Candcpp.LongestSubstring.lengthOfLongestSubstring_iff`).

A position of the string is not bounded, since a string has no more characters than an `int` counts.
-/

namespace Candcpp

open Cpp

namespace LongestSubstring

/-! ### The code -/

/-- `hash[c]++`, or `hash[c]--`. -/
def count (hash : Arr ℤ) (c : Int8) (delta : ℤ) : Exec (Arr ℤ) := do
  let x ← hash.getInt c.toInt
  hash.putInt c.toInt (x + delta)

/-- `while (hash[s[i]] > 1)`, which leaves behind `hash` and `left`. -/
def shrinkLoop (s : List Int8) (i : ℤ) (hash : Arr ℤ) (left : ℤ) : Exec (Arr ℤ × ℤ) := do
  let +zeta shrinkLoop : type_of% shrinkLoop := by apply shrinkLoop
  let c ← nth s i
  let x ← hash.getInt c.toInt
  if x > 1 then
    let d ← nth s left
    let hash ← count hash d (-1)
    shrinkLoop s i hash (left + 1)
  else
    pure (hash, left)
partial_fixpoint

/-- `for (i = 0; i < s.length(); i++)`, which leaves behind `ans`. -/
def slideLoop (s : List Int8) (i : ℤ) (hash : Arr ℤ) (left ans : ℤ) : Exec ℤ := do
  let +zeta slideLoop : type_of% slideLoop := by apply slideLoop
  if i < s.length then
    let c ← nth s i
    let hash ← count hash c 1
    let p ← shrinkLoop s i hash left
    slideLoop s (i + 1) p.1 p.2 (max ans (i - p.2 + 1))
  else
    pure ans
partial_fixpoint

/-- `lengthOfLongestSubstring`. -/
def lengthOfLongestSubstring (s : List Int8) : Exec ℤ := slideLoop s 0 (Arr.fill 256 0) 0 0

/-! ### The right answer -/

/-- The lengths of the substrings in which no character is repeated. -/
def lengths (s : List Int8) : Set ℕ := {m | ∃ sub, sub <:+: s ∧ sub.Nodup ∧ sub.length = m}

/-- The function returns the length of the longest substring without a repeated character. All
indices of `hash` are then within its bounds, since an execution that leaves them stops. -/
def Correct (s : List Int8) : Prop :=
  ∃ m : ℕ, lengthOfLongestSubstring s = pure (m : ℤ) ∧ IsGreatest (lengths s) m

variable {s w : List Int8} {c d : Int8} {hash : Arr ℤ} {left ans r : ℤ} {i l m n : ℕ}

/-- The substrings are the parts between two positions. -/
theorem mem_lengths_iff :
    m ∈ lengths s ↔ ∃ l, l + m ≤ s.length ∧ (between s l (l + m)).Nodup := by
  constructor
  · rintro ⟨sub, hsub, hnodup, rfl⟩
    obtain ⟨a, b, hab, hb, rfl⟩ := infix_iff_between.mp hsub
    refine ⟨a, ?_, ?_⟩
    · rwa [length_between hb, Nat.add_sub_cancel' hab]
    · rwa [length_between hb, Nat.add_sub_cancel' hab]
  · rintro ⟨l, hl, hnodup⟩
    have hsub : between s l (l + m) <:+: s :=
      infix_iff_between.mpr ⟨l, l + m, Nat.le_add_right l m, hl, rfl⟩
    exact ⟨_, hsub, hnodup, by rw [length_between hl, Nat.add_sub_cancel_left]⟩

/-! ### The characters that are indices -/

/-- All characters are indices. -/
def Indexed (s : List Int8) : Prop := ∀ c ∈ s, 0 ≤ c

/-- The index that a character is. -/
def index (c : Int8) : ℕ := c.toInt.toNat

theorem toInt_eq (hc : 0 ≤ c) : c.toInt = index c := by
  rw [Int8.le_iff_toInt_le, Int8.toInt_zero] at hc
  rw [index, Int.toNat_of_nonneg hc]

theorem index_lt (c : Int8) : index c < 256 := by
  have := c.toInt_lt
  rw [index]
  omega

theorem index_inj (hc : 0 ≤ c) (hd : 0 ≤ d) (h : index c = index d) : c = d := by
  rw [← Int8.toInt_inj, toInt_eq hc, toInt_eq hd, h]

/-- The array `hash` of a window. -/
def counting (w : List Int8) : Arr ℤ where
  data := fun x => (w.map index).count x
  size := 256

theorem counting_nil : counting [] = Arr.fill 256 0 := rfl

/-- **A character is counted**, or no longer. -/
theorem count_counting {delta : ℤ} {w' : List Int8} (hc : 0 ≤ c)
    (h : ∀ x, ((w'.map index).count x : ℤ) =
      (w.map index).count x + if x = index c then delta else 0) :
    count (counting w) c delta = pure (counting w') := by
  have hlt : index c < (counting w).size := index_lt c
  rw [count, toInt_eq hc, Arr.getInt_eq hlt, pure_bind, Arr.putInt_eq hlt]
  refine congrArg pure (Arr.ext ?_ rfl)
  funext x
  dsimp only [counting]
  rw [h x, Function.update_apply]
  split_ifs with hx
  · rw [hx]
  · rw [add_zero]

theorem count_add (hc : 0 ≤ c) : count (counting w) c 1 = pure (counting (w ++ [c])) := by
  refine count_counting hc fun x => ?_
  rw [List.map_append, List.count_append, List.map_singleton, List.count_singleton]
  by_cases hx : x = index c
  · simp [hx]
  · simp [hx, Ne.symm hx]

theorem count_remove (hc : 0 ≤ c) : count (counting (c :: w)) c (-1) = pure (counting w) := by
  refine count_counting hc fun x => ?_
  rw [List.map_cons, List.count_cons]
  by_cases hx : x = index c
  · simp [hx]
  · simp [hx, Ne.symm hx]

/-- **What the loop condition asks**: whether the last character of the window is there twice. -/
theorem one_lt_count_iff (hw : Indexed w) (hc : 0 ≤ c) :
    (counting (w ++ [c])).data (index c) > 1 ↔ c ∈ w := by
  have hmem : index c ∈ w.map index ↔ c ∈ w := by
    rw [List.mem_map]
    constructor
    · rintro ⟨d, hd, h⟩
      rwa [← index_inj (hw d hd) hc h]
    · exact fun h => ⟨c, h, rfl⟩
  rw [← hmem, ← List.count_pos_iff, counting]
  simp

theorem getInt_counting (hc : 0 ≤ c) :
    (counting w).getInt c.toInt = pure ((counting w).data (index c)) := by
  rw [toInt_eq hc, Arr.getInt_eq (index_lt c)]

/-! ### The window -/

/-- **The window** that ends before `i`: it is the longest one there that repeats nothing. -/
structure Window (s : List Int8) (i left : ℕ) : Prop where
  le : left ≤ i
  nodup : (between s left i).Nodup
  first : ∀ l ≤ i, (between s l i).Nodup → left ≤ l

/-- A later start leaves out some of the window. -/
theorem nodup_of_le (hl : l ≤ n) (hn : n ≤ i) (h : (between s l i).Nodup) :
    (between s n i).Nodup := by
  rw [between_append hl hn] at h
  exact h.of_append_right

/-- **The inner loop** takes characters out at the left end until the last one is there once. -/
theorem shrinkLoop_eq (hs : Indexed s) (hc : s[i]? = some c) (hl : l ≤ i)
    (hnodup : (between s l i).Nodup)
    (hfirst : ∀ k ≤ i + 1, (between s k (i + 1)).Nodup → l ≤ k) : ∃ l' : ℕ,
    shrinkLoop s i (counting (between s l (i + 1))) l =
      pure (counting (between s l' (i + 1)), (l' : ℤ)) ∧ Window s (i + 1) l' ∧ l' ≤ i := by
  have hpos : 0 ≤ c := hs c (List.mem_of_getElem? hc)
  induction hn : i - l generalizing l with
  | zero =>
    obtain rfl : l = i := by omega
    have hone : ¬ (counting (between s l (l + 1))).data (index c) > 1 := by
      rw [between_concat le_rfl hc, between_self, one_lt_count_iff (by simp [Indexed]) hpos]
      exact List.not_mem_nil
    rw [shrinkLoop, nth_eq hc, pure_bind, getInt_counting hpos, pure_bind, if_neg hone]
    refine ⟨l, rfl, ⟨Nat.le_succ l, ?_, hfirst⟩, le_rfl⟩
    rw [between_concat le_rfl hc, between_self]
    exact List.nodup_singleton c
  | succ n ih =>
    have hw : Indexed (between s l i) := fun d hd => by
      obtain ⟨k, -, -, hk⟩ := mem_between hd
      exact hs d (List.mem_of_getElem? hk)
    have hmem := one_lt_count_iff hw hpos
    rw [← between_concat hl hc] at hmem
    rw [shrinkLoop, nth_eq hc, pure_bind, getInt_counting hpos, pure_bind]
    by_cases htwice : c ∈ between s l i
    · have hlt : l < s.length := by
        have := (List.getElem?_eq_some_iff.mp hc).1
        omega
      have hd := List.getElem?_eq_getElem hlt
      have hcast : (l : ℤ) + 1 = (l + 1 : ℕ) := by push_cast; rfl
      rw [if_pos (hmem.mpr htwice), nth_eq hd, pure_bind, between_cons (by omega) hd,
        count_remove (hs _ (List.mem_of_getElem? hd)), pure_bind, hcast]
      refine ih (by omega) (nodup_of_le (Nat.le_succ l) (by omega) hnodup) ?_ (by omega)
      intro k hk hnd
      refine Nat.lt_of_le_of_ne (hfirst k hk hnd) ?_
      rintro rfl
      -- with this start the last character is repeated
      rw [between_concat hl hc, List.nodup_append] at hnd
      exact hnd.2.2 c htwice c (List.mem_singleton_self c) rfl
    · rw [if_neg (mt hmem.mp htwice)]
      refine ⟨l, rfl, ⟨by omega, ?_, hfirst⟩, hl⟩
      rw [between_concat hl hc]
      exact List.nodup_append.mpr ⟨hnodup, List.nodup_singleton c, fun a ha b hb hab =>
        htwice (List.mem_singleton.mp hb ▸ hab ▸ ha)⟩

/-- The greatest length of a substring that ends at `i` or before and repeats nothing. -/
def Greatest (s : List Int8) (i : ℕ) (m : ℕ) : Prop :=
  IsGreatest {m | ∃ l, l + m ≤ i ∧ (between s l (l + m)).Nodup} m

/-- **One more character**: only the longest window that ends with it counts. -/
theorem Greatest.extend (h : Greatest s i m) (hwin : Window s (i + 1) l) :
    Greatest s (i + 1) (max m (i + 1 - l)) := by
  obtain ⟨⟨k, hk, hnodup⟩, hmax⟩ := h
  constructor
  · rcases le_total m (i + 1 - l) with hle | hle
    · rw [max_eq_right hle]
      have hend : l + (i + 1 - l) = i + 1 := by
        have := hwin.le
        omega
      exact ⟨l, hend.le, by rw [hend]; exact hwin.nodup⟩
    · rw [max_eq_left hle]
      exact ⟨k, by omega, hnodup⟩
  · rintro m' ⟨k', hk', hnodup'⟩
    rcases Nat.lt_or_ge (k' + m') (i + 1) with hlt | hge
    · exact (hmax ⟨k', by omega, hnodup'⟩).trans (le_max_left _ _)
    · have hend : k' + m' = i + 1 := by omega
      rw [hend] at hnodup'
      have := hwin.first k' (by omega) hnodup'
      exact le_trans (by omega) (le_max_right _ _)

/-- **The loop** goes over the string, with the window and the greatest length so far. -/
theorem slideLoop_eq (hs : Indexed s) (hi : i ≤ s.length) (hwin : Window s i l)
    (hm : Greatest s i m) : ∃ m' : ℕ, slideLoop s i (counting (between s l i)) l m = pure (m' : ℤ) ∧
      Greatest s s.length m' := by
  induction hn : s.length - i generalizing i l m with
  | zero =>
    obtain rfl : i = s.length := by omega
    rw [slideLoop, if_neg (by omega)]
    exact ⟨m, rfl, hm⟩
  | succ n ih =>
    have hlt : i < s.length := by omega
    have hc := List.getElem?_eq_getElem hlt
    have hcast : (i : ℤ) + 1 = (i + 1 : ℕ) := by push_cast; rfl
    obtain ⟨l', hrun, hwin', hl'⟩ := shrinkLoop_eq hs hc hwin.le hwin.nodup fun k hk hnd => by
      rcases Nat.lt_or_ge i k with hik | hki
      · exact hwin.le.trans hik.le
      · rw [between_concat hki hc] at hnd
        exact hwin.first k hki hnd.of_append_left
    have hlen : max (m : ℤ) ((i : ℤ) - l' + 1) = (max m (i + 1 - l') : ℕ) := by
      rw [Nat.cast_max]
      omega
    rw [slideLoop, if_pos (by omega), nth_eq hc, pure_bind,
      count_add (hs _ (List.mem_of_getElem? hc)), pure_bind, ← between_concat hwin.le hc, hrun,
      pure_bind, hlen, hcast]
    exact ih (by omega) hwin' (hm.extend hwin') (by omega)

/-! ### The characters that are not -/

/-- A run that counts a character has found it to be an index. -/
theorem nonneg_of_count {delta : ℤ} {hash' : Arr ℤ} (h : count hash c delta = pure hash') :
    0 ≤ c := by
  obtain ⟨x, hx, -⟩ := Exec.bind_eq_pure.mp h
  rw [Int8.le_iff_toInt_le, Int8.toInt_zero]
  by_contra hneg
  rw [Arr.getInt, if_neg hneg] at hx
  exact Exec.pure_ne_throw _ _ hx.symm

/-- A loop that returns has counted all characters that are left. -/
theorem nonneg_of_slideLoop (h : slideLoop s i hash left ans = pure r) (hk : i ≤ n)
    (hc : s[n]? = some c) : 0 ≤ c := by
  have hlt := (List.getElem?_eq_some_iff.mp hc).1
  induction hn : n - i generalizing i hash left ans with
  | zero =>
    obtain rfl : i = n := by omega
    rw [slideLoop, if_pos (by omega), nth_eq hc, pure_bind] at h
    obtain ⟨hash', hcount, -⟩ := Exec.bind_eq_pure.mp h
    exact nonneg_of_count hcount
  | succ m ih =>
    have hd := List.getElem?_eq_getElem (show i < s.length by omega)
    have hcast : (i : ℤ) + 1 = (i + 1 : ℕ) := by push_cast; rfl
    rw [slideLoop, if_pos (by omega), nth_eq hd, pure_bind] at h
    obtain ⟨hash', -, h⟩ := Exec.bind_eq_pure.mp h
    obtain ⟨p, -, h⟩ := Exec.bind_eq_pure.mp h
    rw [hcast] at h
    exact ih h (by omega) (by omega)

end LongestSubstring

end Candcpp
