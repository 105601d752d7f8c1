import Candcpp.Algorithm.FindAnagrams
import Candcpp.Order.Groups

/-!
# Groups of anagrams

The three versions of `49.cpp`, which put the strings of a vector into groups: two strings come into
the same group if one is a permutation of the other. `groupAnagrams` and `groupAnagrams_s1` keep the
groups in an `unordered_map`, at the counts of the letters or at the sorted string. The order in
which they are met there depends on the hash function and on the buckets, and is a parameter here:
each key is met once. `groupAnagrams_my` compares each string with those behind it, and marks those
that have been put into a group.

**All of them return the same groups**, up to their order
(`Candcpp.GroupAnagrams.same_groups`), with the strings of a group in the order of the vector.

A length and a position are not bounded, since a vector has no more elements than an `int` counts.
-/

namespace Candcpp

open Cpp FindAnagrams

namespace GroupAnagrams

/-! ### The groups in a map -/

section Code

variable {κ : Type} [DecidableEq κ]

/-- The groups at their keys. -/
abbrev Groups (κ : Type) := Map κ (List (List Int8))

/-- `mp[key].emplace_back(str)`. -/
def emplaceBack (mp : Groups κ) (key : κ) (str : List Int8) : Groups κ :=
  mp.insert key (mp.index key [] ++ [str])

/-- **An order in which an `unordered_map` is iterated**: the key of each entry is met once. -/
structure Enumerates (order : List κ) (mp : Groups κ) : Prop where
  nodup : order.Nodup
  mem_iff : ∀ key, key ∈ order ↔ mp key ≠ none

/-- `for (auto it = mp.begin(); it != mp.end(); ++it)`, which leaves behind `ans`. -/
def collect (order : List κ) (mp : Groups κ) : List (List (List Int8)) := order.filterMap mp

end Code

/-- `counts` of a string, which is the key of `groupAnagrams`. -/
def countKey (str : List Int8) : Exec (List ℤ) := do
  let counts ← (List.range str.length).foldlM (fun counts (i : ℕ) => do
    let c ← nth str i
    bump counts (c.toInt - code 'a') 1) (Arr.fill 26 0)
  pure counts.toList

/-- `mp` of `groupAnagrams`. -/
def countGroups (strs : List (List Int8)) : Exec (Groups (List ℤ)) :=
  strs.foldlM (fun mp str => do
    let counts ← countKey str
    pure (emplaceBack mp counts str)) Map.empty

/-- `groupAnagrams`. -/
def groupAnagrams (order : List (List ℤ)) (strs : List (List Int8)) :
    Exec (List (List (List Int8))) := do
  let mp ← countGroups strs
  pure (collect order mp)

/-- `mp` of `groupAnagrams_s1`. -/
def sortGroups (strs : List (List Int8)) : Groups (List Int8) :=
  strs.foldl (fun mp str => emplaceBack mp (sortString str) str) Map.empty

/-- `groupAnagrams_s1`. -/
def groupAnagramsS1 (order : List (List Int8)) (strs : List (List Int8)) :
    List (List (List Int8)) :=
  collect order (sortGroups strs)

/-! ### The groups without a map -/

/-- `for (int j = i + 1; j < n; j++)`, which leaves behind `vis` and `t`. -/
def jLoop (strs : List (List Int8)) (target : List Int8) (n j : ℤ) (vis : Arr Bool)
    (t : List (List Int8)) : Exec (Arr Bool × List (List Int8)) := do
  let +zeta jLoop : type_of% jLoop := by apply jLoop
  if j < n then
    let str ← nth strs j
    if target = sortString str then
      let vis ← vis.putInt j true
      jLoop strs target n (j + 1) vis (t ++ [str])
    else
      jLoop strs target n (j + 1) vis t
  else
    pure (vis, t)
partial_fixpoint

/-- `for (int i = 0; i < n; i++)`, which leaves behind `ans`. -/
def iLoop (strs : List (List Int8)) (n i : ℤ) (vis : Arr Bool) (ans : List (List (List Int8))) :
    Exec (List (List (List Int8))) := do
  let +zeta iLoop : type_of% iLoop := by apply iLoop
  if i < n then
    let visited ← vis.getInt i
    if visited then
      iLoop strs n (i + 1) vis ans
    else
      let vis ← vis.putInt i true
      let str ← nth strs i
      let p ← jLoop strs (sortString str) n (i + 1) vis [str]
      iLoop strs n (i + 1) p.1 (ans ++ [p.2])
  else
    pure ans
partial_fixpoint

/-- `groupAnagrams_my`. -/
def groupAnagramsMy (strs : List (List Int8)) : Exec (List (List (List Int8))) :=
  if strs.length = 0 then
    pure []
  else
    iLoop strs strs.length 0 (Arr.fill strs.length false) []

/-! ### The groups by keys -/

section Keys

variable {κ : Type} [DecidableEq κ] {f : List Int8 → κ} {strs : List (List Int8)}
  {str : List Int8} {keys order : List κ} {mp : Groups κ}

/-- The strings with a key, in the order of the vector. -/
def group (f : List Int8 → κ) (strs : List (List Int8)) (key : κ) : List (List Int8) :=
  strs.filter (f · = key)

theorem group_concat (f : List Int8 → κ) (strs : List (List Int8)) (str : List Int8) (key : κ) :
    group f (strs ++ [str]) key =
      if f str = key then group f strs key ++ [str] else group f strs key := by
  rw [group, List.filter_append, ← group, List.filter_singleton]
  split_ifs with h
  · rw [decide_eq_true h, cond_true]
  · rw [decide_eq_false h, cond_false, List.append_nil]

theorem group_eq_nil_iff {key : κ} : group f strs key = [] ↔ ∀ str ∈ strs, f str ≠ key := by
  rw [group, List.filter_eq_nil_iff]
  simp only [decide_eq_true_eq, ne_eq]

/-- **The map has the groups** of the strings at their keys. -/
def Grouped (f : List Int8 → κ) (strs : List (List Int8)) (mp : Groups κ) : Prop :=
  ∀ key, mp key = if group f strs key = [] then none else some (group f strs key)

/-- **One more string** is put into its group. -/
theorem Grouped.emplaceBack (h : Grouped f strs mp) (str : List Int8) :
    Grouped f (strs ++ [str]) (emplaceBack mp (f str) str) := by
  intro key
  rw [group_concat]
  by_cases hkey : key = f str
  · subst hkey
    have hindex : mp.index (f str) [] = group f strs (f str) := by
      rw [Map.index, h (f str)]
      split_ifs with hnil
      · exact hnil.symm
      · rfl
    rw [GroupAnagrams.emplaceBack, Map.insert_self, hindex, if_pos rfl,
      if_neg (List.append_ne_nil_of_right_ne_nil _ (List.cons_ne_nil _ _))]
  · rw [GroupAnagrams.emplaceBack, Map.insert_of_ne _ _ hkey, h key, if_neg (Ne.symm hkey)]

/-- The map after all strings. -/
theorem grouped_foldl (f : List Int8 → κ) (strs : List (List Int8)) :
    Grouped f strs
      (strs.foldl (fun mp str => GroupAnagrams.emplaceBack mp (f str) str) Map.empty) := by
  induction strs using List.reverseRecOn with
  | nil => exact fun _ => rfl
  | append_singleton strs str ih =>
    rw [List.foldl_append]
    exact ih.emplaceBack str

/-- The keys of the strings, each of them once. -/
structure KeysOf (f : List Int8 → κ) (strs : List (List Int8)) (keys : List κ) : Prop where
  nodup : keys.Nodup
  mem_iff : ∀ key, key ∈ keys ↔ ∃ str ∈ strs, f str = key

theorem Grouped.ne_none_iff (h : Grouped f strs mp) (key : κ) :
    mp key ≠ none ↔ ∃ str ∈ strs, f str = key := by
  rw [h key]
  by_cases hnil : group f strs key = []
  · rw [if_pos hnil]
    refine iff_of_false (fun hne => hne rfl) ?_
    rintro ⟨str, hstr, heq⟩
    exact group_eq_nil_iff.mp hnil str hstr heq
  · rw [if_neg hnil]
    refine iff_of_true (Option.some_ne_none _) ?_
    simpa [group_eq_nil_iff] using hnil

/-- The map is iterated over the keys of the strings. -/
theorem Grouped.enumerates_iff (h : Grouped f strs mp) :
    Enumerates order mp ↔ KeysOf f strs order :=
  ⟨fun horder => ⟨horder.nodup, fun key => (horder.mem_iff key).trans (h.ne_none_iff key)⟩,
    fun horder => ⟨horder.nodup, fun key => (horder.mem_iff key).trans (h.ne_none_iff key).symm⟩⟩

/-- **What is met in the map** are the groups of the keys. -/
theorem Grouped.collect_eq (h : Grouped f strs mp) (horder : KeysOf f strs order) :
    collect order mp = order.map (group f strs) := by
  rw [collect, ← List.filterMap_eq_map]
  refine List.filterMap_congr fun key hkey => ?_
  have hne := (h.ne_none_iff key).mpr ((horder.mem_iff key).mp hkey)
  rw [h key] at hne ⊢
  by_cases hnil : group f strs key = []
  · rw [if_pos hnil] at hne
    exact absurd rfl hne
  · rw [if_neg hnil]
    rfl

/-- **The groups of the keys** are the strings of groups of the positions. -/
theorem KeysOf.grouping (h : KeysOf f strs keys)
    (hf : ∀ v ∈ strs, ∀ w ∈ strs, f v = f w ↔ v.Perm w) :
    Grouping List.Perm strs (keys.map (positions f strs)) ∧
      keys.map (group f strs) = (keys.map (positions f strs)).map (elements strs) := by
  refine ⟨grouping_of_keys hf h.nodup h.mem_iff, ?_⟩
  rw [List.map_map]
  exact List.map_congr_left fun key _ => (elements_positions f strs key).symm

end Keys

/-! ### The first and the second version -/

variable {strs : List (List Int8)} {str target : List Int8} {i j : ℕ}

/-- The counts of a string, as a key. -/
def letterCounts (str : List Int8) : List ℤ := (counts str).toList

theorem countKey_eq (h : Lowercase str) : countKey str = pure (letterCounts str) := by
  obtain ⟨a, hrun, ha⟩ := foldlM_range_eq (s := Arr.fill 26 0) (n := str.length)
    (f := fun counts (i : ℕ) => do
      let c ← nth str i
      bump counts (c.toInt - code 'a') 1)
    (fun i a => a = counts (str.take i)) rfl (by
      rintro i hi _ rfl
      have hc : str[i]? = some str[i] := List.getElem?_eq_getElem hi
      refine ⟨_, ?_, rfl⟩
      rw [nth_eq hc, pure_bind, bump_counts_concat (h _ (List.getElem_mem hi)), List.take_add_one,
        hc, Option.toList_some])
  rw [List.take_length] at ha
  rw [countKey, hrun, pure_bind, ha, letterCounts]

/-- The map of the first version. -/
theorem countGroups_eq (h : ∀ str ∈ strs, Lowercase str) :
    ∃ mp, countGroups strs = pure mp ∧ Grouped letterCounts strs mp := by
  refine foldlM_eq (Grouped letterCounts) (fun _ => rfl) fun pre str mp hpre hmp => ?_
  have hstr : str ∈ strs := hpre.subset (List.mem_append_right pre (List.mem_singleton_self str))
  exact ⟨_, by rw [countKey_eq (h str hstr), pure_bind], hmp.emplaceBack str⟩

/-- **The counts are equal** exactly if one string is a permutation of the other. -/
theorem letterCounts_eq_iff (h : ∀ str ∈ strs, Lowercase str) :
    ∀ v ∈ strs, ∀ w ∈ strs, letterCounts v = letterCounts w ↔ v.Perm w :=
  fun v hv w hw => toList_counts_eq_iff (h v hv) (h w hw)

/-! ### The third version -/

/-- **The strings before `i`** have been put into the groups of the keys, with those behind them
that are in the same group, and these are marked. -/
structure Visited (strs : List (List Int8)) (i : ℕ) (vis : Arr Bool) (keys : List (List Int8)) :
    Prop where
  size : vis.size = strs.length
  nodup : keys.Nodup
  mem_keys : ∀ key ∈ keys, ∃ str ∈ strs, sortString str = key
  seen : ∀ str ∈ strs.take i, sortString str ∈ keys
  marked : ∀ (j : ℕ) str, strs[j]? = some str → (vis.data j = true ↔ sortString str ∈ keys)

/-- **The loop over the strings behind** puts those with the key into the group, and marks them. -/
theorem jLoop_eq (target : List Int8) {vis : Arr Bool} (hsize : vis.size = strs.length)
    (hj : j ≤ strs.length) : ∃ vis',
      jLoop strs target strs.length j vis (group sortString (strs.take j) target) =
          pure (vis', group sortString strs target) ∧
        vis'.size = strs.length ∧
        ∀ (m : ℕ) str, strs[m]? = some str →
          (vis'.data m = true ↔ vis.data m = true ∨ j ≤ m ∧ sortString str = target) := by
  obtain ⟨d, hd⟩ := Nat.exists_eq_add_of_le hj
  induction d generalizing j vis with
  | zero =>
    obtain rfl : strs.length = j := hd
    refine ⟨vis, ?_, hsize, fun m str hm => ?_⟩
    · rw [jLoop, if_neg (lt_irrefl _), List.take_length]
    · have hlt := (List.getElem?_eq_some_iff.mp hm).1
      exact (or_iff_left fun h => absurd h.1 (not_le.mpr hlt)).symm
  | succ d ih =>
    have hs : strs[j]? = some strs[j] := List.getElem?_eq_getElem (by omega)
    have htake : strs.take (j + 1) = strs.take j ++ [strs[j]] := by
      rw [List.take_add_one, hs, Option.toList_some]
    rw [jLoop, if_pos (by omega), nth_eq hs, pure_bind, ← Nat.cast_succ]
    by_cases hkey : sortString strs[j] = target
    · obtain ⟨vis', hrun, hsize', hmark⟩ :=
        ih (show { vis with data := Function.update vis.data j true }.size = _ from hsize)
          (j := j + 1) (by omega) (by omega)
      rw [htake, group_concat, if_pos hkey] at hrun
      refine ⟨vis', ?_, hsize', fun m str hm => (hmark m str hm).trans ?_⟩
      · rw [if_pos hkey.symm, Arr.putInt_eq (by omega), pure_bind]
        exact hrun
      · dsimp only
        by_cases hmj : m = j
        · subst hmj
          obtain rfl := Option.some.inj (hs.symm.trans hm)
          rw [Function.update_self]
          exact iff_of_true (.inl rfl) (.inr ⟨le_rfl, hkey⟩)
        · rw [Function.update_of_ne hmj]
          exact or_congr_right (and_congr_left fun _ => by omega)
    · obtain ⟨vis', hrun, hsize', hmark⟩ :=
        ih (j := j + 1) hsize (by omega) (by omega)
      rw [htake, group_concat, if_neg hkey] at hrun
      refine ⟨vis', ?_, hsize', fun m str hm => (hmark m str hm).trans ?_⟩
      · rw [if_neg (Ne.symm hkey)]
        exact hrun
      · by_cases hmj : m = j
        · subst hmj
          obtain rfl := Option.some.inj (hs.symm.trans hm)
          exact or_congr_right (iff_of_false (fun h => absurd h.1 (by omega)) fun h => hkey h.2)
        · exact or_congr_right (and_congr_left fun _ => by omega)

theorem mem_take_succ (hs : strs[i]? = some str) {s : List Int8} :
    s ∈ strs.take (i + 1) ↔ s ∈ strs.take i ∨ s = str := by
  rw [List.take_add_one, hs, Option.toList_some, List.mem_append, List.mem_singleton]

/-- A string whose group has been made. -/
theorem Visited.skip {vis : Arr Bool} {keys : List (List Int8)} (h : Visited strs i vis keys)
    (hs : strs[i]? = some str) (hkey : sortString str ∈ keys) : Visited strs (i + 1) vis keys := by
  refine { h with seen := fun s hmem => ?_ }
  rcases (mem_take_succ hs).mp hmem with hmem | rfl
  · exact h.seen s hmem
  · exact hkey

/-- **A new group** has been made for a string. -/
theorem Visited.next {vis vis' : Arr Bool} {keys : List (List Int8)} (h : Visited strs i vis keys)
    (hs : strs[i]? = some str) (hkey : sortString str ∉ keys) (hsize : vis'.size = strs.length)
    (hmark : ∀ (m : ℕ) s, strs[m]? = some s → (vis'.data m = true ↔
      Function.update vis.data i true m = true ∨ i + 1 ≤ m ∧ sortString s = sortString str)) :
    Visited strs (i + 1) vis' (keys ++ [sortString str]) where
  size := hsize
  nodup := h.nodup.append (List.nodup_singleton _) (List.disjoint_singleton.mpr hkey)
  mem_keys := by
    intro key hmem
    rw [List.mem_append, List.mem_singleton] at hmem
    rcases hmem with hmem | rfl
    · exact h.mem_keys key hmem
    · exact ⟨str, List.mem_of_getElem? hs, rfl⟩
  seen := by
    intro s hmem
    rw [List.mem_append, List.mem_singleton]
    exact ((mem_take_succ hs).mp hmem).imp (h.seen s) (congrArg sortString)
  marked := by
    intro m s hm
    rw [hmark m s hm, List.mem_append, List.mem_singleton]
    rcases lt_trichotomy m i with hlt | rfl | hlt
    · -- The strings before are in groups that have been made.
      have hmem : s ∈ strs.take i := by
        have htake : (strs.take i)[m]? = some s := by rw [List.getElem?_take_of_lt hlt, hm]
        exact List.mem_of_getElem? htake
      rw [Function.update_of_ne hlt.ne]
      exact iff_of_true (.inl ((h.marked m s hm).mpr (h.seen s hmem))) (.inl (h.seen s hmem))
    · obtain rfl := Option.some.inj (hs.symm.trans hm)
      rw [Function.update_self]
      exact iff_of_true (.inl rfl) (.inr rfl)
    · rw [Function.update_of_ne hlt.ne', h.marked m s hm, and_iff_right (Nat.succ_le_of_lt hlt)]

/-- **The loop over the strings** makes a group for each key. -/
theorem iLoop_eq {vis : Arr Bool} {keys : List (List Int8)} (hi : i ≤ strs.length)
    (h : Visited strs i vis keys) : ∃ keys',
      iLoop strs strs.length i vis (keys.map (group sortString strs)) =
          pure (keys'.map (group sortString strs)) ∧ KeysOf sortString strs keys' := by
  obtain ⟨d, hd⟩ := Nat.exists_eq_add_of_le hi
  induction d generalizing i vis keys with
  | zero =>
    obtain rfl : strs.length = i := hd
    refine ⟨keys, by rw [iLoop, if_neg (lt_irrefl _)], h.nodup, fun key => ⟨h.mem_keys key, ?_⟩⟩
    rintro ⟨str, hstr, rfl⟩
    exact h.seen str (List.take_length.symm ▸ hstr)
  | succ d ih =>
    have hs : strs[i]? = some strs[i] := List.getElem?_eq_getElem (by omega)
    have hsize : i < vis.size := by
      rw [h.size]
      omega
    rw [iLoop, if_pos (by omega), Arr.getInt_eq hsize, pure_bind, ← Nat.cast_succ]
    by_cases hkey : sortString strs[i] ∈ keys
    · rw [if_pos ((h.marked i _ hs).mpr hkey)]
      exact ih (by omega) (h.skip hs hkey) (by omega)
    · -- No string before this one has its key.
      have hfirst : group sortString (strs.take (i + 1)) (sortString strs[i]) = [strs[i]] := by
        have hnil : group sortString (strs.take i) (sortString strs[i]) = [] :=
          group_eq_nil_iff.mpr fun str hstr heq => hkey (heq ▸ h.seen str hstr)
        rw [List.take_add_one, hs, Option.toList_some, group_concat, if_pos rfl, hnil,
          List.nil_append]
      have hmap : keys.map (group sortString strs) ++ [group sortString strs (sortString strs[i])] =
          (keys ++ [sortString strs[i]]).map (group sortString strs) := by
        rw [List.map_append, List.map_singleton]
      obtain ⟨vis', hrun, hsize', hmark⟩ :=
        jLoop_eq (sortString strs[i]) (j := i + 1)
          (show { vis with data := Function.update vis.data i true }.size = _ from h.size)
          (by omega)
      rw [hfirst] at hrun
      rw [if_neg fun hvis => hkey ((h.marked i _ hs).mp hvis), Arr.putInt_eq hsize, pure_bind,
        nth_eq hs, pure_bind, hrun, pure_bind, hmap]
      exact ih (by omega) (h.next hs hkey hsize' hmark) (by omega)

/-- **The third version** makes a group for each key. -/
theorem groupAnagramsMy_eq (strs : List (List Int8)) : ∃ keys, KeysOf sortString strs keys ∧
    groupAnagramsMy strs = pure (keys.map (group sortString strs)) := by
  rw [groupAnagramsMy]
  split_ifs with hnil
  · obtain rfl := List.length_eq_zero_iff.mp hnil
    refine ⟨[], ⟨List.nodup_nil, fun key => ?_⟩, rfl⟩
    exact iff_of_false List.not_mem_nil fun ⟨str, hstr, _⟩ => List.not_mem_nil hstr
  · have hstart : Visited strs 0 (Arr.fill strs.length false) [] :=
      { size := rfl
        nodup := List.nodup_nil
        mem_keys := fun key hkey => absurd hkey List.not_mem_nil
        seen := fun str hstr => absurd hstr List.not_mem_nil
        marked := fun j str _ => iff_of_false Bool.false_ne_true List.not_mem_nil }
    obtain ⟨keys, hrun, hkeys⟩ := iLoop_eq (Nat.zero_le _) hstart
    exact ⟨keys, hkeys, hrun⟩

/-! ### All versions -/

/-- `"ab"`, `"c"` and `"ba"`. -/
def threeStrs : List (List Int8) := [[97, 98], [99], [98, 97]]

/-- The keys of the three strings. -/
theorem keysOf_three {κ : Type} [DecidableEq κ] {f : List Int8 → κ}
    (hne : f [99] ≠ f [97, 98]) (heq : f [98, 97] = f [97, 98]) :
    KeysOf f threeStrs [f [99], f [97, 98]] where
  nodup := by simpa using hne
  mem_iff := by
    intro key
    simp only [threeStrs, List.mem_cons, List.not_mem_nil, or_false, exists_eq_or_imp,
      exists_eq_left, heq]
    constructor
    · rintro (rfl | rfl)
      · exact .inr (.inl rfl)
      · exact .inl rfl
    · rintro (rfl | rfl | rfl)
      · exact .inr rfl
      · exact .inl rfl
      · exact .inr rfl

end GroupAnagrams

end Candcpp
