import Candcpp.Algorithm.Covered

/-!
# Counting the windows that cover a string

The two versions of `validSubstringCount` in `3297.cpp`, which count the substrings of `s` that
contain every letter at least as often as `t` does. Both move a window over `s`, which loses its
first character as long as it covers `t`; for each end, the windows that cover `t` are then those
that start before it.

The first version compares the counts of all letters each time. The second one has the differences
of the counts, and in `less` the number of letters that the window has not often enough
(`Candcpp.ValidSubstringCount.lacking`): this changes only when a difference becomes zero, or was
zero (`Candcpp.ValidSubstringCount.lacking_raise`). So **both return the number of these windows**
(`Candcpp.ValidSubstringCount.same_count`).

A letter is an index, and so all characters are lower-case letters. A position is not bounded, since
a string has no more characters than an `int` counts; there are then not more windows than a
`long long` counts.
-/

namespace Candcpp

open Cpp Covered

namespace ValidSubstringCount

/-! ### The first version -/

/-- `is_covered`. -/
def isCovered (cntS cntT : Arr ℤ) : Exec Bool := coveredLoop cntS cntT (code 'a') (code 'z')

/-- `while (is_covered(cnt_s, cnt_t))`, which leaves behind `cnt_s` and `left`. -/
def shrinkLoop (s : List Int8) (cntT cntS : Arr ℤ) (left : ℤ) : Exec (Arr ℤ × ℤ) := do
  let +zeta shrinkLoop : type_of% shrinkLoop := by apply shrinkLoop
  if ← isCovered cntS cntT then
    let c ← nth s left
    let cntS ← bump cntS c.toInt (-1)
    shrinkLoop s cntT cntS (left + 1)
  else
    pure (cntS, left)
partial_fixpoint

/-- `for (int right = 0; right < m; ++right)`, which leaves behind `ans`. -/
def slideLoop (s : List Int8) (cntT : Arr ℤ) (m right : ℤ) (cntS : Arr ℤ) (left ans : ℤ) :
    Exec ℤ := do
  let +zeta slideLoop : type_of% slideLoop := by apply slideLoop
  if right < m then
    let c ← nth s right
    let cntS ← bump cntS c.toInt 1
    let p ← shrinkLoop s cntT cntS left
    slideLoop s cntT m (right + 1) p.1 p.2 (ans + p.2)
  else
    pure ans
partial_fixpoint

/-- `Solution::validSubstringCount`. -/
def validSubstringCount (s t : List Int8) : Exec ℤ := do
  let m : ℤ := s.length
  let cntT ← countAll 0 t (Arr.fill 128 0)
  slideLoop s cntT m 0 (Arr.fill 128 0) 0 0

/-! ### The second version -/

/-- `for (int d : diff)`, which leaves behind `less`. -/
def lessOf (diff : List ℤ) : ℤ := diff.foldl (fun less d => if d > 0 then less + 1 else less) 0

/-- `while (less == 0)`, which leaves behind `diff`, `less` and `left`. -/
def shrinkLoop2 (s : List Int8) (diff : Arr ℤ) (less left : ℤ) : Exec (Arr ℤ × ℤ × ℤ) := do
  let +zeta shrinkLoop2 : type_of% shrinkLoop2 := by apply shrinkLoop2
  if less = 0 then
    let c ← nth s left
    let outChar := c.toInt - code 'a'
    let x ← diff.getInt outChar
    let less := if x = 0 then less + 1 else less
    let diff ← bump diff outChar 1
    shrinkLoop2 s diff less (left + 1)
  else
    pure (diff, less, left)
partial_fixpoint

/-- `for (char c : s)`, which leaves behind `ans`. -/
def slideLoop2 (s : List Int8) : List Int8 → Arr ℤ → ℤ → ℤ → ℤ → Exec ℤ
  | [], _, _, _, ans => pure ans
  | c :: rest, diff, less, left, ans => do
    let diff ← bump diff (c.toInt - code 'a') (-1)
    let x ← diff.getInt (c.toInt - code 'a')
    let less := if x = 0 then less - 1 else less
    let p ← shrinkLoop2 s diff less left
    slideLoop2 s rest p.1 p.2.1 p.2.2 (ans + p.2.2)

/-- `Solution2::validSubstringCount`. -/
def validSubstringCount2 (s t : List Int8) : Exec ℤ := do
  if s.length < t.length then
    pure 0
  else
    let diff ← countAll (code 'a') t (Arr.fill 26 0)
    slideLoop2 s s diff (lessOf diff.toList) 0 0

/-! ### The windows -/

/-- The index of a lower-case letter. -/
def Lower (x : ℤ) : Prop := 97 ≤ x ∧ x ≤ 122

theorem Lower.nonneg {x : ℤ} (h : Lower x) : 0 ≤ x := le_trans (by decide) h.1

instance (x : ℤ) : Decidable (Lower x) := inferInstanceAs (Decidable (_ ∧ _))

variable {s t w rest : List Int8} {c : Int8} {f : ℤ → ℤ} {i ans less : ℤ} {k l n r : ℕ}

/-- The number of windows up to `n`. -/
noncomputable def windows (s t : List Int8) (n : ℕ) : ℤ := (goodWindows (Covering s t) n).ncard

theorem windows_zero (s t : List Int8) : windows s t 0 = 0 := by
  rw [windows, goodWindows_zero, Set.ncard_empty, Nat.cast_zero]

/-- **The windows with the next end** are added. -/
theorem windows_succ (hf : Frontier (Covering s t) (n + 1) l) :
    windows s t (n + 1) = windows s t n + l := by
  rw [windows, hf.ncard_succ, Nat.cast_add, windows]

/-- **The test of the first loop**: whether the window covers `t`. -/
theorem isCovered_eq (ht : ∀ c ∈ t, Lower c.toInt) :
    ∃ b, isCovered (counts w) (counts t) = pure b ∧ (b = true ↔ Covers w t) := by
  obtain ⟨b, hb, hall⟩ := @coveredLoop_eq 97 122 w t (by omega) (by omega) (by omega)
  refine ⟨b, hb, hall.trans ?_⟩
  rw [covers_iff ht]
  exact ⟨fun h x hx => h x hx.1 hx.2, fun h x hx hx' => h x ⟨hx, hx'⟩⟩

/-- **The inner loop** goes on up to the frontier. -/
theorem shrinkLoop_eq (hs : ∀ c ∈ s, Lower c.toInt) (ht : ∀ c ∈ t, Lower c.toInt) (hne : t ≠ [])
    (hr : r < s.length) (hk : k ≤ r + 1) (hgood : ∀ l < k, Covering s t l (r + 1)) :
    ∃ k' : ℕ, shrinkLoop s (counts t) (counts (between s k (r + 1))) k =
      pure (counts (between s k' (r + 1)), (k' : ℤ)) ∧ Frontier (Covering s t) (r + 1) k' := by
  obtain ⟨d, hd⟩ := Nat.exists_eq_add_of_le hk
  induction d generalizing k with
  | zero =>
    obtain ⟨b, hrun, hcover⟩ := isCovered_eq (w := between s k (r + 1)) ht
    obtain rfl : k = r + 1 := hd.symm
    have hfail := not_covering_self hne s (r + 1)
    refine ⟨r + 1, ?_, ⟨le_rfl, hgood, fun l hl hl' => by omega⟩⟩
    rw [shrinkLoop, hrun, pure_bind, if_neg (mt hcover.mp hfail)]
  | succ d ih =>
    obtain ⟨b, hrun, hcover⟩ := isCovered_eq (w := between s k (r + 1)) ht
    rw [shrinkLoop, hrun, pure_bind]
    by_cases hc : Covering s t k (r + 1)
    · have hx : s[k]? = some s[k] := List.getElem?_eq_getElem (by omega)
      rw [if_pos (hcover.mpr hc), nth_eq hx, pure_bind, between_cons (by omega) hx,
        bump_counts_cons (hs _ (List.getElem_mem _)).nonneg, pure_bind, ← Nat.cast_succ]
      refine ih (k := k + 1) (by omega) (fun l hl => ?_) (by omega)
      rcases Nat.lt_succ_iff_lt_or_eq.mp hl with hlt | rfl
      · exact hgood l hlt
      · exact hc
    · rw [if_neg (mt hcover.mp hc)]
      exact ⟨k, rfl, frontier_of_stop (extends_covers s t) (by omega) hgood hc⟩

/-- **The loop** adds up the frontiers. -/
theorem slideLoop_eq (hs : ∀ c ∈ s, Lower c.toInt) (ht : ∀ c ∈ t, Lower c.toInt) (hne : t ≠ [])
    (hr : r ≤ s.length) (hf : Frontier (Covering s t) r k) :
    slideLoop s (counts t) s.length r (counts (between s k r)) k (windows s t r) =
      pure (windows s t s.length) := by
  obtain ⟨d, hd⟩ := Nat.exists_eq_add_of_le hr
  induction d generalizing r k with
  | zero =>
    obtain rfl : s.length = r := hd
    rw [slideLoop, if_neg (lt_irrefl _)]
  | succ d ih =>
    have hx : s[r]? = some s[r] := List.getElem?_eq_getElem (by omega)
    obtain ⟨k', hrun, hf'⟩ := shrinkLoop_eq hs ht hne (show r < s.length by omega)
      (hf.le.trans (Nat.le_succ r)) fun l hl => hf.keeps (extends_covers s t) hl
    rw [slideLoop, if_pos (by omega), nth_eq hx, pure_bind,
      bump_counts_concat (hs _ (List.getElem_mem _)).nonneg, pure_bind, ← between_concat hf.le hx,
      hrun, pure_bind, ← Nat.cast_succ]
    dsimp only
    rw [← windows_succ hf']
    exact ih (by omega) hf' (by omega)

/-- **The first version** counts the windows. -/
theorem validSubstringCount_eq (hs : ∀ c ∈ s, Lower c.toInt) (ht : ∀ c ∈ t, Lower c.toInt)
    (hne : t ≠ []) : validSubstringCount s t = pure (windows s t s.length) := by
  have hrun := slideLoop_eq hs ht hne (Nat.zero_le _) (frontier_zero (Covering s t))
  rw [between_self, windows_zero, Nat.cast_zero] at hrun
  rw [validSubstringCount, countAll_counts fun c hc => (ht c hc).nonneg, pure_bind]
  exact hrun

/-! ### The letters that are missing -/

/-- The number of letters whose difference is positive. -/
def lacking (f : ℤ → ℤ) : ℕ := ((Finset.range 26).filter fun i : ℕ => 0 < f i).card

/-- The loop over the differences counts them. -/
theorem lessOf_table (f : ℤ → ℤ) : lessOf (Arr.table 26 f).toList = lacking f := by
  have hrange : ∀ n : ℕ, lessOf ((List.range n).map fun i : ℕ => f i) =
      ((Finset.range n).filter fun i : ℕ => 0 < f i).card := by
    intro n
    induction n with
    | zero => rfl
    | succ n ih =>
      rw [lessOf] at ih ⊢
      rw [List.range_succ, List.map_append, List.foldl_append, ih, Finset.card_filter,
        Finset.card_filter, Finset.sum_range_succ, Nat.cast_add, List.map_singleton,
        List.foldl_cons, List.foldl_nil]
      split_ifs
      · rfl
      · rw [Nat.cast_zero, add_zero]
  exact hrange 26

/-- **One more letter is missing** when its difference was zero, and is raised. -/
theorem lacking_raise (h0 : 0 ≤ i) (hi : i < 26) (f : ℤ → ℤ) :
    lacking (fun x => f x + if x = i then 1 else 0) = lacking f + if f i = 0 then 1 else 0 := by
  obtain ⟨m, rfl⟩ := Int.eq_ofNat_of_zero_le h0
  rw [lacking, lacking]
  split_ifs with hzero
  · have hinsert : ((Finset.range 26).filter fun k : ℕ => 0 < f k + if (k : ℤ) = m then 1 else 0) =
        insert m ((Finset.range 26).filter fun k : ℕ => 0 < f k) := by
      ext k
      rw [Finset.mem_insert, Finset.mem_filter, Finset.mem_filter]
      by_cases hk : k = m
      · subst hk
        refine iff_of_true ⟨Finset.mem_range.mpr (by omega), ?_⟩ (.inl rfl)
        rw [if_pos rfl, hzero]
        decide
      · rw [if_neg (mt Nat.cast_inj.mp hk), add_zero]
        exact (or_iff_right hk).symm
    rw [hinsert, Finset.card_insert_of_notMem fun hmem => ?_]
    rw [Finset.mem_filter, hzero] at hmem
    exact lt_irrefl _ hmem.2
  · rw [add_zero]
    refine congrArg Finset.card (Finset.filter_congr fun k _ => ?_)
    split_ifs with hk
    · rw [hk]
      omega
    · rw [add_zero]

/-- The differences of the counts of `t` and of a window, letter by letter. -/
def diffs (t w : List Int8) (x : ℤ) : ℤ := tally t (x + 97) - tally w (x + 97)

theorem diffs_concat (t w : List Int8) (c : Int8) :
    (fun x => diffs t w x + if x = c.toInt - 97 then -1 else 0) = diffs t (w ++ [c]) := by
  funext x
  rw [diffs, diffs, tally_concat]
  simp only [eq_sub_iff_add_eq]
  split_ifs
  · ring
  · ring

theorem diffs_cons (t w : List Int8) (c : Int8) :
    (fun x => diffs t (c :: w) x + if x = c.toInt - 97 then 1 else 0) = diffs t w := by
  funext x
  rw [diffs, diffs, tally_cons w c]
  simp only [eq_sub_iff_add_eq]
  split_ifs
  · ring
  · ring

/-- **No letter is missing** exactly if the window covers `t`. -/
theorem lacking_eq_zero (ht : ∀ c ∈ t, Lower c.toInt) : lacking (diffs t w) = 0 ↔ Covers w t := by
  rw [lacking, Finset.card_eq_zero, Finset.filter_eq_empty_iff, covers_iff ht]
  constructor
  · intro h x hx
    obtain ⟨m, hm⟩ := Int.eq_ofNat_of_zero_le (show 0 ≤ x - 97 by have := hx.1; omega)
    have hle := h (x := m) (Finset.mem_range.mpr (by have := hx.2; omega))
    rw [diffs, show (m : ℤ) + 97 = x by omega] at hle
    omega
  · intro h k hk
    rw [Finset.mem_range] at hk
    have hle := h (k + 97) ⟨by omega, by omega⟩
    rw [diffs]
    omega

/-! ### The loops of the second version -/

/-- **A character comes in**: `less` is counted down when its difference becomes zero. -/
theorem lacking_concat (hc : Lower c.toInt) (t w : List Int8) :
    (lacking (diffs t (w ++ [c])) : ℤ) = if diffs t (w ++ [c]) (c.toInt - 97) = 0 then
      (lacking (diffs t w) : ℤ) - 1 else lacking (diffs t w) := by
  rw [Lower] at hc
  have hraise := lacking_raise (show 0 ≤ c.toInt - 97 by omega) (by omega) (diffs t (w ++ [c]))
  have hback : (fun x => diffs t (w ++ [c]) x + if x = c.toInt - 97 then 1 else 0) = diffs t w := by
    rw [← diffs_concat]
    funext x
    dsimp only
    split_ifs
    · ring
    · ring
  rw [hback] at hraise
  rw [hraise]
  split_ifs
  · push_cast
    ring
  · rw [add_zero]

/-- **A character goes out**: `less` is counted up when its difference was zero. -/
theorem lacking_cons (hc : Lower c.toInt) (t w : List Int8) :
    (lacking (diffs t w) : ℤ) = if diffs t (c :: w) (c.toInt - 97) = 0 then
      (lacking (diffs t (c :: w)) : ℤ) + 1 else lacking (diffs t (c :: w)) := by
  rw [Lower] at hc
  have hraise := lacking_raise (show 0 ≤ c.toInt - 97 by omega) (by omega) (diffs t (c :: w))
  rw [diffs_cons] at hraise
  rw [hraise]
  split_ifs
  · push_cast
    ring
  · rw [add_zero]

/-- **The inner loop** goes on up to the frontier. -/
theorem shrinkLoop2_eq (hs : ∀ c ∈ s, Lower c.toInt) (ht : ∀ c ∈ t, Lower c.toInt) (hne : t ≠ [])
    (hr : r < s.length) (hk : k ≤ r + 1) (hgood : ∀ l < k, Covering s t l (r + 1))
    (hless : less = lacking (diffs t (between s k (r + 1)))) : ∃ k' : ℕ,
      shrinkLoop2 s (Arr.table 26 (diffs t (between s k (r + 1)))) less k =
        pure (Arr.table 26 (diffs t (between s k' (r + 1))),
          (lacking (diffs t (between s k' (r + 1))) : ℤ), (k' : ℤ)) ∧
        Frontier (Covering s t) (r + 1) k' := by
  obtain ⟨d, hd⟩ := Nat.exists_eq_add_of_le hk
  have hcover : less = 0 ↔ Covering s t k (r + 1) := by
    rw [hless, Nat.cast_eq_zero]
    exact lacking_eq_zero ht
  induction d generalizing k less with
  | zero =>
    obtain rfl : k = r + 1 := hd.symm
    have hfail := not_covering_self hne s (r + 1)
    refine ⟨r + 1, ?_, ⟨le_rfl, hgood, fun l hl hl' => by omega⟩⟩
    rw [shrinkLoop2, if_neg (mt hcover.mp hfail), hless]
  | succ d ih =>
    rw [shrinkLoop2]
    by_cases hc : Covering s t k (r + 1)
    · have hx : s[k]? = some s[k] := List.getElem?_eq_getElem (by omega)
      have hlow : Lower s[k].toInt := hs _ (List.getElem_mem _)
      have hout := lacking_cons hlow t (between s (k + 1) (r + 1))
      have hlow' := hlow
      rw [Lower] at hlow'
      rw [if_pos (hcover.mpr hc), nth_eq hx, pure_bind, code_lower_a]
      dsimp only
      rw [between_cons (by omega) hx] at hless ⊢
      rw [getInt_table (by omega) (by omega), pure_bind, bump_table (by omega) (by omega),
        pure_bind, diffs_cons, hless, ← hout, ← Nat.cast_succ]
      refine ih (k := k + 1) (by omega) (fun l hl => ?_) rfl (by omega) ?_
      · rcases Nat.lt_succ_iff_lt_or_eq.mp hl with hlt | rfl
        · exact hgood l hlt
        · exact hc
      · rw [Nat.cast_eq_zero]
        exact lacking_eq_zero ht
    · rw [if_neg (mt hcover.mp hc), hless]
      exact ⟨k, rfl, frontier_of_stop (extends_covers s t) (by omega) hgood hc⟩

/-- **The loop** adds up the frontiers. -/
theorem slideLoop2_eq (hs : ∀ c ∈ s, Lower c.toInt) (ht : ∀ c ∈ t, Lower c.toInt) (hne : t ≠ [])
    (hrest : rest = s.drop r) (hr : r ≤ s.length) (hf : Frontier (Covering s t) r k) :
    slideLoop2 s rest (Arr.table 26 (diffs t (between s k r)))
      (lacking (diffs t (between s k r))) k (windows s t r) = pure (windows s t s.length) := by
  induction rest generalizing r k with
  | nil =>
    obtain rfl : r = s.length := le_antisymm hr (List.drop_eq_nil_iff.mp hrest.symm)
    rfl
  | cons c rest ih =>
    have hlt : r < s.length := by
      by_contra hge
      rw [List.drop_eq_nil_of_le (not_lt.mp hge)] at hrest
      exact List.cons_ne_nil _ _ hrest
    obtain ⟨rfl, rfl⟩ := List.cons.inj (hrest.trans (List.drop_eq_getElem_cons hlt))
    have hx : s[r]? = some s[r] := List.getElem?_eq_getElem hlt
    have hlow : Lower s[r].toInt := hs _ (List.getElem_mem _)
    have hin := lacking_concat hlow t (between s k r)
    have hlow' := hlow
    rw [Lower] at hlow'
    obtain ⟨k', hrun, hf'⟩ := shrinkLoop2_eq hs ht hne hlt (hf.le.trans (Nat.le_succ r))
      (fun l hl => hf.keeps (extends_covers s t) hl) rfl
    rw [between_concat hf.le hx, hin] at hrun
    rw [slideLoop2, code_lower_a, bump_table (by omega) (by omega), pure_bind, diffs_concat,
      getInt_table (by omega) (by omega), pure_bind]
    dsimp only
    rw [hrun, pure_bind]
    dsimp only
    rw [← windows_succ hf']
    exact ih rfl hlt hf'

/-- A string covers none that is longer. -/
theorem Covers.length_le (h : Covers w t) : t.length ≤ w.length :=
  (List.subperm_ext_iff.mpr fun c _ => h c).length_le

/-- **The second version** counts the windows. -/
theorem validSubstringCount2_eq (hs : ∀ c ∈ s, Lower c.toInt) (ht : ∀ c ∈ t, Lower c.toInt)
    (hne : t ≠ []) : validSubstringCount2 s t = pure (windows s t s.length) := by
  rw [validSubstringCount2]
  split_ifs with hlen
  · have hnone : goodWindows (Covering s t) s.length = ∅ := by
      refine Set.eq_empty_of_forall_notMem fun p hp => ?_
      have hle := Covers.length_le hp.2.2
      rw [length_between hp.2.1] at hle
      have hend := hp.2.1
      omega
    rw [windows, hnone, Set.ncard_empty, Nat.cast_zero]
  · have hcount : countAll (code 'a') t (Arr.fill 26 0) = pure (Arr.table 26 (diffs t [])) := by
      have hrange : ∀ c ∈ t, 0 ≤ c.toInt - 97 ∧ c.toInt - 97 < (26 : ℕ) := by
        intro c hc
        have hlow := ht c hc
        rw [Lower] at hlow
        omega
      rw [Arr.fill_eq_table, code_lower_a, countAll_eq 97 _ hrange]
      refine congrArg (fun f => pure (Arr.table 26 f)) ?_
      funext x
      rw [diffs, tally_nil, zero_add, sub_zero]
    have hrun := slideLoop2_eq hs ht hne (List.drop_zero).symm (Nat.zero_le _)
      (frontier_zero (Covering s t))
    rw [between_self, windows_zero, Nat.cast_zero] at hrun
    rw [hcount, pure_bind, lessOf_table]
    exact hrun

end ValidSubstringCount

end Candcpp
