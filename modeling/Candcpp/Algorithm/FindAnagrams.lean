import Candcpp.Cpp.Loop
import Candcpp.Cpp.Map
import Candcpp.Cpp.Tally
import Candcpp.Order.Windows

/-!
# Anagrams in a string

The two versions of `438.cpp`, which list the positions of a string `s` where a permutation of `p`
begins. Both slide a window of the length of `p` over `s`, and compare the counts of its characters
with those of `p`: `findAnagrams` in two maps, of which that of the window has no entry for a
character that does not occur, and `findAnagrams_lo` in two arrays.

`findAnagrams` compares the entries of the window only. This is enough, since the window has as many
characters as `p` (`Candcpp.FindAnagrams.isValid_eq`). The last window is compared behind the loop.
**Both return the positions in increasing order** (`Candcpp.FindAnagrams.same_positions`), also
where `p` is empty, and begins everywhere.

A position is not bounded, since a string has no more characters than an `int` counts.
-/

namespace Candcpp

open Cpp

namespace FindAnagrams

/-! ### The first version -/

/-- The maps of `findAnagrams`. -/
abbrev CharMap := Map Int8 ℤ

/-- **The order in which an `unordered_map` is iterated**: each entry comes once. -/
structure Iteration where
  entries : CharMap → List (Int8 × ℤ)
  mem_entries : ∀ m k v, (k, v) ∈ entries m ↔ m k = some v
  nodup : ∀ m, ((entries m).map Prod.fst).Nodup

/-- `m.at(k)`. -/
def atKey (m : CharMap) (k : Int8) : Exec ℤ :=
  match m k with
  | none => throw .outOfRange
  | some v => pure v

/-- `for (const auto& pair : window)` of `isValid`. -/
def validLoop (target : CharMap) : List (Int8 × ℤ) → Exec Bool
  | [] => pure true
  | pair :: rest =>
    if target pair.1 = none then
      pure false
    else do
      let x ← atKey target pair.1
      if pair.2 ≠ x then
        pure false
      else
        validLoop target rest

section Code

variable (it : Iteration)

/-- `isValid`. -/
def isValid (target window : CharMap) : Exec Bool := validLoop target (it.entries window)

/-- `for (int j = 0; j < length_of_window; j++)`, which leaves behind `cnt_window`. -/
def initLoop (s : List Int8) (length j : ℤ) (window : CharMap) : Exec CharMap := do
  let +zeta initLoop : type_of% initLoop := by apply initLoop
  if j < length then
    let c ← nth s j
    initLoop s length (j + 1) (window.countUp c)
  else
    pure window
partial_fixpoint

/-- `if (m[c] == 0) m.erase(c)`. -/
def eraseZero (m : CharMap) (c : Int8) : CharMap :=
  let count := m.index c 0
  let m := m.insert c count
  if count = 0 then m.erase c else m

/-- The window after the character `c` has gone out and `d` has come in. -/
def slide (m : CharMap) (c d : Int8) : CharMap :=
  eraseZero ((m.insert c (m.index c 0 - 1)).countUp d) c

/-- `for (i = 0; i + length_of_window < s.length(); i++)`, which leaves behind `i`, `cnt_window` and
`ans`. -/
def slideLoop (s : List Int8) (target : CharMap) (length i : ℤ) (window : CharMap) (ans : List ℤ) :
    Exec (ℤ × CharMap × List ℤ) := do
  let +zeta slideLoop : type_of% slideLoop := by apply slideLoop
  if i + length < s.length then
    let valid ← isValid it target window
    let ans := if valid then ans ++ [i] else ans
    let c ← nth s i
    let d ← nth s (i + length)
    slideLoop s target length (i + 1) (slide window c d) ans
  else
    pure (i, window, ans)
partial_fixpoint

/-- `findAnagrams`. -/
def findAnagrams (s p : List Int8) : Exec (List ℤ) := do
  if p.length > s.length then
    pure []
  else
    let target := p.foldl Map.countUp Map.empty
    let window ← initLoop s p.length 0 Map.empty
    let r ← slideLoop it s target p.length 0 window []
    let valid ← isValid it target r.2.1
    pure (if valid then r.2.2 ++ [r.1] else r.2.2)

end Code

/-! ### The second version -/

/-- `for (int i = 0; i < pLen; ++i)`, which leaves behind `sCount` and `pCount`. -/
def countLoop (s p : List Int8) (pLen i : ℤ) (sCount pCount : Arr ℤ) : Exec (Arr ℤ × Arr ℤ) := do
  let +zeta countLoop : type_of% countLoop := by apply countLoop
  if i < pLen then
    let c ← nth s i
    let sCount ← bump sCount (c.toInt - code 'a') 1
    let d ← nth p i
    let pCount ← bump pCount (d.toInt - code 'a') 1
    countLoop s p pLen (i + 1) sCount pCount
  else
    pure (sCount, pCount)
partial_fixpoint

/-- `for (int i = 0; i < sLen - pLen; ++i)`, which leaves behind `ans`. -/
def slideLoopLo (s : List Int8) (pCount : Arr ℤ) (sLen pLen i : ℤ) (sCount : Arr ℤ) (ans : List ℤ) :
    Exec (List ℤ) := do
  let +zeta slideLoopLo : type_of% slideLoopLo := by apply slideLoopLo
  if i < sLen - pLen then
    let c ← nth s i
    let sCount ← bump sCount (c.toInt - code 'a') (-1)
    let d ← nth s (i + pLen)
    let sCount ← bump sCount (d.toInt - code 'a') 1
    let ans := if sCount.toList = pCount.toList then ans ++ [i + 1] else ans
    slideLoopLo s pCount sLen pLen (i + 1) sCount ans
  else
    pure ans
partial_fixpoint

/-- `findAnagrams_lo`. -/
def findAnagramsLo (s p : List Int8) : Exec (List ℤ) := do
  let sLen : ℤ := s.length
  let pLen : ℤ := p.length
  if sLen < pLen then
    pure []
  else
    let counts ← countLoop s p pLen 0 (Arr.fill 26 0) (Arr.fill 26 0)
    let ans := if counts.1.toList = counts.2.toList then [0] else []
    slideLoopLo s counts.2 sLen pLen 0 counts.1 ans

/-! ### The right answer -/

variable {it : Iteration} {s p w w' : List Int8} {m : CharMap} {c d : Int8} {ans : List ℤ}
  {f g : ℤ → ℤ} {i n : ℕ}

/-- The window at a position. -/
def window (s p : List Int8) (i : ℕ) : List Int8 := between s i (i + p.length)

/-- **The positions** before `n` where a permutation of `p` begins, in increasing order. -/
def found (s p : List Int8) (n : ℕ) : List ℤ :=
  ((List.range n).filter fun i => (window s p i).Perm p).map (↑)

theorem found_succ (s p : List Int8) (n : ℕ) :
    found s p (n + 1) =
      if (window s p n).Perm p then found s p n ++ [(n : ℤ)] else found s p n := by
  rw [found, List.range_succ, List.filter_append, List.map_append, ← found]
  split_ifs with h
  · rw [List.filter_singleton, decide_eq_true h]
    rfl
  · rw [List.filter_singleton, decide_eq_false h, cond_false, List.map_nil, List.append_nil]

/-- **The next window**: one character goes out, and one comes in. -/
theorem window_succ (hc : s[i]? = some c) (hd : s[i + p.length]? = some d) :
    c :: window s p (i + 1) = window s p i ++ [d] := by
  rw [window, window, Nat.add_right_comm, ← between_cons (by omega) hc,
    between_concat (Nat.le_add_right _ _) hd]

/-! ### The maps -/

theorem count_succ (h : c :: w' = w ++ [d]) (k : Int8) :
    (w'.count k : ℤ) = w.count k + (if k = d then 1 else 0) - if k = c then 1 else 0 := by
  have hcount := congrArg (List.count k) h
  rw [List.count_cons, List.count_append, List.count_singleton] at hcount
  simp only [beq_iff_eq, eq_comm (b := k)] at hcount
  split_ifs at hcount ⊢ <;> omega

/-- An entry is there exactly if the character occurs. -/
theorem counts_iff :
    m.Counts w ↔ ∀ k, m k = if w.count k = 0 then none else some (w.count k : ℤ) := by
  refine forall_congr' fun k => ?_
  by_cases hk : k ∈ w
  · rw [if_pos hk, if_neg (List.count_pos_iff.mpr hk).ne']
  · rw [if_neg hk, if_pos (List.count_eq_zero.mpr hk)]

/-- What `cnt_window[c]` is read as before the entry is erased, if it is. -/
theorem index_countUp (h : m.Counts w) (hw : c :: w' = w ++ [d]) (k : Int8) :
    ((m.insert c (m.index c 0 - 1)).countUp d).index k 0 = w'.count k := by
  have hout : ∀ k, (m.insert c (m.index c 0 - 1)).index k 0 =
      (w.count k : ℤ) - if k = c then 1 else 0 := by
    intro k
    by_cases hk : k = c
    · rw [hk, Map.index_insert_self, h.index_eq, if_pos rfl]
    · rw [Map.index_insert_of_ne _ _ _ hk, h.index_eq, if_neg hk, sub_zero]
  rw [count_succ hw, Map.countUp, hout]
  by_cases hk : k = d
  · rw [hk, Map.index_insert_self, if_pos rfl]
    ring
  · rw [Map.index_insert_of_ne _ _ _ hk, hout, if_neg hk, add_zero]

/-- **The map of the next window** has no entry for a character that does not occur. -/
theorem slide_counts (h : m.Counts w) (hw : c :: w' = w ++ [d]) : (slide m c d).Counts w' := by
  rw [counts_iff]
  intro k
  have hindex := index_countUp h hw k
  rw [slide, eraseZero, index_countUp h hw c]
  by_cases hk : k = c
  · subst hk
    by_cases hzero : w'.count k = 0
    · rw [if_pos (by rw [hzero]; rfl), Map.erase_self, if_pos hzero]
    · rw [if_neg (by exact_mod_cast hzero), Map.insert_self, if_neg hzero]
  · have hcount := count_succ hw k
    rw [if_neg hk, sub_zero] at hcount
    have hsame : (if (w'.count c : ℤ) = 0 then
        (((m.insert c (m.index c 0 - 1)).countUp d).insert c (w'.count c)).erase c else
        ((m.insert c (m.index c 0 - 1)).countUp d).insert c (w'.count c)) k =
          (m.insert c (m.index c 0 - 1)).countUp d k := by
      split_ifs
      · rw [Map.erase_of_ne _ hk, Map.insert_of_ne _ _ hk]
      · rw [Map.insert_of_ne _ _ hk]
    rw [hsame]
    by_cases hkd : k = d
    · subst hkd
      rw [Map.countUp, Map.index_insert_self] at hindex
      rw [Map.countUp, Map.insert_self, hindex, if_neg]
      rw [if_pos rfl] at hcount
      omega
    · rw [if_neg hkd, add_zero] at hcount
      rw [Map.countUp, Map.insert_of_ne _ _ hkd, Map.insert_of_ne _ _ hk, counts_iff.mp h k,
        hcount]
      simp only [← Nat.cast_inj (R := ℤ), hcount]

/-- **The loop of `isValid`** compares the entries. -/
theorem validLoop_eq (target : CharMap) (l : List (Int8 × ℤ)) :
    ∃ b, validLoop target l = pure b ∧ (b = true ↔ ∀ pair ∈ l, target pair.1 = some pair.2) := by
  induction l with
  | nil => exact ⟨true, rfl, iff_of_true rfl fun pair hp => absurd hp List.not_mem_nil⟩
  | cons pair l ih =>
    rw [validLoop]
    cases hx : target pair.1 with
    | none =>
      refine ⟨false, rfl, iff_of_false Bool.false_ne_true fun hall => ?_⟩
      have hpair := hall pair List.mem_cons_self
      rw [hx] at hpair
      cases hpair
    | some x =>
      rw [if_neg (Option.some_ne_none x), atKey, hx]
      dsimp only
      rw [pure_bind]
      by_cases hne : pair.2 = x
      · obtain ⟨b, hb, hall⟩ := ih
        rw [if_neg (not_not.mpr hne), hb]
        refine ⟨b, rfl, hall.trans ?_⟩
        rw [List.forall_mem_cons, hx, hne, and_iff_right rfl]
      · rw [if_pos hne]
        refine ⟨false, rfl, iff_of_false Bool.false_ne_true fun hall => hne ?_⟩
        have hpair := hall pair List.mem_cons_self
        rw [hx] at hpair
        exact (Option.some.inj hpair).symm

/-- **It is enough to compare the entries of the window**, as it has as many characters. -/
theorem isValid_eq {target : CharMap} (ht : target.Counts p) (hm : m.Counts w)
    (hlen : w.length = p.length) : isValid it target m = pure (decide (w.Perm p)) := by
  obtain ⟨b, hb, hall⟩ := validLoop_eq target (it.entries m)
  have hcount : (∀ pair ∈ it.entries m, target pair.1 = some pair.2) ↔
      ∀ c ∈ w, w.count c = p.count c := by
    constructor
    · intro h c hc
      have hmem : (c, (w.count c : ℤ)) ∈ it.entries m := by
        rw [it.mem_entries, hm c, if_pos hc]
      have htarget := h _ hmem
      rw [counts_iff.mp ht c] at htarget
      split_ifs at htarget
      exact (Nat.cast_inj.mp (Option.some.inj htarget)).symm
    · rintro h ⟨c, v⟩ hpair
      rw [it.mem_entries, hm c] at hpair
      split_ifs at hpair with hc
      rw [ht c, if_pos, ← h c hc]
      · exact hpair
      · rw [← List.count_pos_iff, ← h c hc]
        exact List.count_pos_iff.mpr hc
  rw [isValid, hb]
  refine congrArg pure ?_
  rw [Bool.eq_iff_iff, hall, hcount, decide_eq_true_iff]
  constructor
  · intro h
    exact (List.subperm_ext_iff.mpr fun c hc => (h c hc).le).perm_of_length_le hlen.ge
  · exact fun h c _ => h.count_eq c

/-! ### The loops of the first version -/

theorem length_window (hi : i + p.length ≤ s.length) : (window s p i).length = p.length := by
  rw [window, length_between hi, Nat.add_sub_cancel_left]

/-- The map of the first window. -/
theorem initLoop_eq (hn : n ≤ s.length) (hi : i ≤ n) (hm : m.Counts (between s 0 i)) :
    ∃ m', initLoop s n i m = pure m' ∧ m'.Counts (between s 0 n) := by
  obtain ⟨k, hk⟩ := Nat.exists_eq_add_of_le hi
  induction k generalizing i m with
  | zero =>
    obtain rfl : n = i := hk
    exact ⟨m, by rw [initLoop, if_neg (lt_irrefl _)], hm⟩
  | succ k ih =>
    have hc : s[i]? = some s[i] := List.getElem?_eq_getElem (by omega)
    rw [initLoop, if_pos (by omega), nth_eq hc, pure_bind, ← Nat.cast_succ]
    refine ih (by omega) ?_ (by omega)
    rw [between_concat (Nat.zero_le i) hc]
    exact (hm.countUp s[i]).perm (List.perm_append_singleton s[i] _).symm

/-- **The loop** lists the positions before the last window. -/
theorem slideLoop_eq {target : CharMap} (ht : target.Counts p) (hn : n + p.length = s.length)
    (hi : i ≤ n) (hm : m.Counts (window s p i)) : ∃ m',
      slideLoop it s target p.length i m (found s p i) = pure ((n : ℤ), m', found s p n) ∧
        m'.Counts (window s p n) := by
  obtain ⟨k, hk⟩ := Nat.exists_eq_add_of_le hi
  induction k generalizing i m with
  | zero =>
    obtain rfl : n = i := hk
    exact ⟨m, by rw [slideLoop, if_neg (by omega)], hm⟩
  | succ k ih =>
    have hc : s[i]? = some s[i] := List.getElem?_eq_getElem (by omega)
    have hd : s[i + p.length]? = some s[i + p.length] := List.getElem?_eq_getElem (by omega)
    have hlen := length_window (s := s) (p := p) (i := i) (by omega)
    have hlist : (if decide ((window s p i).Perm p) = true then found s p i ++ [(i : ℤ)] else
        found s p i) = found s p (i + 1) := by
      rw [found_succ]
      simp only [decide_eq_true_iff]
    rw [slideLoop, if_pos (by omega), isValid_eq ht hm hlen, pure_bind]
    dsimp only
    rw [hlist, nth_eq hc, pure_bind, ← Nat.cast_add, nth_eq hd, pure_bind, ← Nat.cast_succ]
    exact ih (by omega) (slide_counts hm (window_succ hc hd)) (by omega)

/-- **The first version** lists the positions. -/
theorem findAnagrams_eq (it : Iteration) (s p : List Int8) :
    findAnagrams it s p = pure (found s p (s.length + 1 - p.length)) := by
  rw [findAnagrams]
  split_ifs with hlt
  · rw [show s.length + 1 - p.length = 0 by omega]
    rfl
  · have ht : (p.foldl Map.countUp (Map.empty : CharMap)).Counts p := by
      have hempty : (Map.empty : CharMap).Counts [] := Map.counts_empty
      have hfold := hempty.foldl_countUp p
      rw [List.append_nil] at hfold
      exact hfold.perm (List.reverse_perm p)
    obtain ⟨n, hn⟩ : ∃ n, n + p.length = s.length := ⟨s.length - p.length, by omega⟩
    obtain ⟨m, hinit, hm⟩ := initLoop_eq (s := s) (n := p.length) (i := 0) (by omega)
      (Nat.zero_le _) (by rw [between_self]; exact Map.counts_empty)
    rw [← Nat.zero_add p.length] at hm
    have hzero : found s p 0 = [] := rfl
    obtain ⟨m', hrun, hm'⟩ := slideLoop_eq ht hn (Nat.zero_le n) hm
    rw [Nat.cast_zero] at hinit hrun
    rw [hzero] at hrun
    have hlen := length_window (s := s) (p := p) (i := n) hn.le
    rw [hinit, pure_bind, hrun, pure_bind]
    dsimp only
    rw [isValid_eq ht hm' hlen, pure_bind, show s.length + 1 - p.length = n + 1 by omega,
      found_succ]
    simp only [decide_eq_true_iff]

/-! ### The second version -/

/-- The array of the counts. -/
def counts (w : List Int8) : Arr ℤ := Arr.table 26 fun x => tally w (x + 97)

/-- A character of the lower-case letters. -/
def Lowercase (w : List Int8) : Prop := ∀ c ∈ w, 97 ≤ c.toInt ∧ c.toInt ≤ 122

instance (w : List Int8) : Decidable (Lowercase w) :=
  inferInstanceAs (Decidable (∀ c ∈ w, _ ∧ _))

/-- **The arrays are equal** exactly if the strings are permutations of each other. -/
theorem toList_counts_eq_iff (hw : Lowercase w) (hp : Lowercase p) :
    (counts w).toList = (counts p).toList ↔ w.Perm p := by
  rw [counts, counts, toList_table_eq_iff]
  constructor
  · refine fun h => List.perm_iff_count.mpr fun c => ?_
    by_cases hc : 97 ≤ c.toInt ∧ c.toInt ≤ 122
    · obtain ⟨m, hm⟩ := Int.eq_ofNat_of_zero_le (sub_nonneg.mpr hc.1)
      have hcount := h m (by omega)
      rw [show (m : ℤ) + 97 = c.toInt by omega, tally_toInt, tally_toInt] at hcount
      exact Nat.cast_inj.mp hcount
    · rw [List.count_eq_zero.mpr fun hmem => hc (hw c hmem),
        List.count_eq_zero.mpr fun hmem => hc (hp c hmem)]
  · exact fun h k _ => tally_perm h _

theorem Lowercase.between (hs : Lowercase s) (a b : ℕ) : Lowercase (between s a b) := fun c hc => by
  obtain ⟨k, -, -, hk⟩ := mem_between hc
  exact hs c (List.mem_of_getElem? hk)

/-- **A character comes in**, at the end or anywhere. -/
theorem bump_counts_concat (hc : 97 ≤ c.toInt ∧ c.toInt ≤ 122) (w : List Int8) :
    bump (counts w) (c.toInt - code 'a') 1 = pure (counts (w ++ [c])) := by
  rw [counts, code_lower_a, bump_table (by omega) (by omega)]
  refine congrArg (fun f => pure (Arr.table 26 f)) ?_
  funext x
  rw [tally_concat]
  simp only [eq_sub_iff_add_eq]

/-- **The next window**: the character that goes out need not have come in before. -/
theorem bump_counts_slide (hc : 97 ≤ c.toInt ∧ c.toInt ≤ 122) (hd : 97 ≤ d.toInt ∧ d.toInt ≤ 122)
    (hw : c :: w' = w ++ [d]) : ∃ a, bump (counts w) (c.toInt - code 'a') (-1) = pure a ∧
      bump a (d.toInt - code 'a') 1 = pure (counts w') := by
  rw [counts, code_lower_a, bump_table (by omega) (by omega)]
  refine ⟨_, rfl, ?_⟩
  rw [bump_table (by omega) (by omega)]
  refine congrArg (fun f => pure (Arr.table 26 f)) ?_
  funext x
  have hnext : tally w' (x + 97) = tally w (x + 97) + (if x + 97 = d.toInt then 1 else 0) +
      if x + 97 = c.toInt then -1 else 0 := by
    rw [tally_cons w' c, hw, tally_concat]
  rw [hnext]
  simp only [eq_sub_iff_add_eq]
  ring

/-- The arrays of the first window and of `p`. -/
theorem countLoop_eq (hs : Lowercase s) (hp : Lowercase p) (hn : n = p.length) (hns : n ≤ s.length)
    (hi : i ≤ n) :
    countLoop s p n i (counts (between s 0 i)) (counts (between p 0 i)) =
      pure (counts (between s 0 n), counts (between p 0 n)) := by
  obtain ⟨k, hk⟩ := Nat.exists_eq_add_of_le hi
  induction k generalizing i with
  | zero =>
    obtain rfl : n = i := hk
    rw [countLoop, if_neg (lt_irrefl _)]
  | succ k ih =>
    have hc : s[i]? = some s[i] := List.getElem?_eq_getElem (by omega)
    have hd : p[i]? = some p[i] := List.getElem?_eq_getElem (by omega)
    rw [countLoop, if_pos (by omega), nth_eq hc, pure_bind,
      bump_counts_concat (hs _ (List.getElem_mem _)), pure_bind, nth_eq hd, pure_bind,
      bump_counts_concat (hp _ (List.getElem_mem _)), pure_bind, ← Nat.cast_succ,
      ← between_concat (Nat.zero_le i) hc, ← between_concat (Nat.zero_le i) hd]
    exact ih (by omega) (by omega)

/-- **The loop** lists the positions. -/
theorem slideLoopLo_eq (hs : Lowercase s) (hp : Lowercase p) (hn : n + p.length = s.length)
    (hi : i ≤ n) : slideLoopLo s (counts p) s.length p.length i (counts (window s p i))
      (found s p (i + 1)) = pure (found s p (n + 1)) := by
  obtain ⟨k, hk⟩ := Nat.exists_eq_add_of_le hi
  induction k generalizing i with
  | zero =>
    obtain rfl : n = i := hk
    rw [slideLoopLo, if_neg (by omega)]
  | succ k ih =>
    have hc : s[i]? = some s[i] := List.getElem?_eq_getElem (by omega)
    have hd : s[i + p.length]? = some s[i + p.length] := List.getElem?_eq_getElem (by omega)
    obtain ⟨a, ha, hb⟩ := bump_counts_slide (hs _ (List.getElem_mem _))
      (hs _ (List.getElem_mem _)) (window_succ hc hd)
    have hperm : (counts (window s p (i + 1))).toList = (counts p).toList ↔
        (window s p (i + 1)).Perm p := toList_counts_eq_iff (hs.between _ _) hp
    have hlist : (if (counts (window s p (i + 1))).toList = (counts p).toList then
        found s p (i + 1) ++ [(i : ℤ) + 1] else found s p (i + 1)) = found s p (i + 1 + 1) := by
      rw [found_succ s p (i + 1), Nat.cast_succ]
      simp only [hperm]
    rw [slideLoopLo, if_pos (by omega), nth_eq hc, pure_bind, ha, pure_bind, ← Nat.cast_add,
      nth_eq hd, pure_bind, hb, pure_bind]
    dsimp only
    rw [hlist, ← Nat.cast_succ]
    exact ih (by omega) (by omega)

/-- **The second version** lists the positions. -/
theorem findAnagramsLo_eq (hs : Lowercase s) (hp : Lowercase p) :
    findAnagramsLo s p = pure (found s p (s.length + 1 - p.length)) := by
  rw [findAnagramsLo]
  dsimp only
  split_ifs with hlt
  · rw [show s.length + 1 - p.length = 0 by omega]
    rfl
  · obtain ⟨n, hn⟩ : ∃ n, n + p.length = s.length := ⟨s.length - p.length, by omega⟩
    have hcount := countLoop_eq hs hp (n := p.length) (i := 0) rfl (by omega) (Nat.zero_le _)
    have hempty : counts [] = Arr.fill 26 0 := rfl
    have hperm : (counts (between s 0 p.length)).toList = (counts p).toList ↔
        (window s p 0).Perm p := by
      rw [window, Nat.zero_add]
      exact toList_counts_eq_iff (hs.between _ _) hp
    have hlist : (if (counts (between s 0 p.length)).toList = (counts p).toList then [(0 : ℤ)]
        else []) = found s p 1 := by
      rw [found_succ s p 0]
      simp only [hperm]
      rfl
    have hrun := slideLoopLo_eq hs hp hn (Nat.zero_le n)
    rw [window, Nat.zero_add] at hrun
    rw [Nat.cast_zero] at hcount hrun
    rw [between_self, between_self, hempty, between_all] at hcount
    rw [hcount, pure_bind]
    dsimp only
    rw [hlist, show s.length + 1 - p.length = n + 1 by omega]
    exact hrun

/-! ### Both versions -/

theorem pairwise_found (s p : List Int8) (n : ℕ) : (found s p n).Pairwise (· < ·) := by
  rw [found, List.pairwise_map]
  refine (List.Pairwise.filter _ List.pairwise_lt_range).imp ?_
  intro a b hab
  exact Nat.cast_lt.mpr hab

theorem mem_found {x : ℤ} : x ∈ found s p n ↔ ∃ i : ℕ, x = i ∧ i < n ∧ (window s p i).Perm p := by
  rw [found, List.mem_map]
  refine exists_congr fun i => ?_
  rw [List.mem_filter, List.mem_range, decide_eq_true_iff, eq_comm, and_comm]

/-- All the characters. -/
def chars : List Int8 := (List.finRange (2 ^ 8)).map fun i => ⟨⟨⟨i⟩⟩⟩

/-- The entries in the order of their keys. -/
def byKey : Iteration where
  entries m := chars.filterMap fun k => (m k).map (Prod.mk k)
  mem_entries m k v := by
    have hk : k ∈ chars := List.mem_map.mpr ⟨k.toUInt8.toBitVec.toFin, List.mem_finRange _, rfl⟩
    rw [List.mem_filterMap]
    constructor
    · rintro ⟨k', -, h⟩
      obtain ⟨v', hv, heq⟩ := Option.map_eq_some_iff.mp h
      cases heq
      exact hv
    · exact fun h => ⟨k, hk, by rw [h]; rfl⟩
  nodup m := by
    have hchars : chars.Nodup := by
      refine (List.nodup_finRange _).map fun i j h => ?_
      cases h
      rfl
    rw [List.map_filterMap]
    refine hchars.filterMap fun k l b hk hl => ?_
    obtain ⟨x, hx, rfl⟩ := Option.map_eq_some_iff.mp hk
    obtain ⟨y, hy, heq⟩ := Option.map_eq_some_iff.mp hl
    obtain ⟨v, -, rfl⟩ := Option.map_eq_some_iff.mp hx
    obtain ⟨w, -, rfl⟩ := Option.map_eq_some_iff.mp hy
    exact heq.symm

end FindAnagrams

end Candcpp
