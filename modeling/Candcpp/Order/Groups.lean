import Mathlib

/-!
# The positions of a list in groups

The positions of a list are put into groups by what is there: two positions come into the same group
if their elements are related. A `Candcpp.Grouping` has each position in exactly one group, and the
positions of a group in increasing order. Up to the order of the groups there is only one
(`Candcpp.Grouping.perm`).

A program groups by keys. It has a list of all the keys of the elements, each of them once, and for
each of them the elements with this key. **This is the grouping** if two elements are related
exactly if their keys are equal (`Candcpp.grouping_of_keys`).
-/

namespace Candcpp

variable {α κ : Type}

/-- The elements at the positions of a group. -/
def elements (l : List α) (g : List ℕ) : List α := g.filterMap (l[·]?)

/-- **Groups of the positions** of a list, by a relation of their elements. -/
structure Grouping (same : α → α → Prop) (l : List α) (groups : List (List ℕ)) : Prop where
  /-- Each position is in exactly one group. -/
  once : groups.flatten.Perm (List.range l.length)
  /-- No group is empty. -/
  ne_nil : [] ∉ groups
  /-- The positions of a group are in increasing order. -/
  ordered : ∀ g ∈ groups, g.Pairwise (· < ·)
  /-- Two positions are in the same group exactly if their elements are related. -/
  same_iff : ∀ g ∈ groups, ∀ i ∈ g, ∀ (j : ℕ) x y, l[i]? = some x → l[j]? = some y →
    (j ∈ g ↔ same x y)

variable {same : α → α → Prop} {l : List α} {groups groups' : List (List ℕ)}

namespace Grouping

theorem mem_flatten_iff (h : Grouping same l groups) {i : ℕ} :
    (∃ g ∈ groups, i ∈ g) ↔ i < l.length := by
  rw [← List.mem_range, ← h.once.mem_iff, List.mem_flatten]

/-- **The group of a position** has the positions of the related elements. -/
theorem mem_group_iff (h : Grouping same l groups) {g : List ℕ} (hg : g ∈ groups) {i : ℕ} {x : α}
    (hi : i ∈ g) (hx : l[i]? = some x) {j : ℕ} : j ∈ g ↔ ∃ y, l[j]? = some y ∧ same x y := by
  constructor
  · intro hj
    have hlt := h.mem_flatten_iff.mp ⟨g, hg, hj⟩
    have hy : l[j]? = some l[j] := List.getElem?_eq_getElem hlt
    exact ⟨_, hy, (h.same_iff g hg i hi j x _ hx hy).mp hj⟩
  · rintro ⟨y, hy, hxy⟩
    exact (h.same_iff g hg i hi j x y hx hy).mpr hxy

theorem subset (h : Grouping same l groups) (h' : Grouping same l groups') :
    groups ⊆ groups' := by
  intro g hg
  obtain ⟨i, hi⟩ := List.exists_mem_of_ne_nil g fun hnil => h.ne_nil (hnil ▸ hg)
  have hlt := h.mem_flatten_iff.mp ⟨g, hg, hi⟩
  have hx : l[i]? = some l[i] := List.getElem?_eq_getElem hlt
  obtain ⟨g', hg', hi'⟩ := h'.mem_flatten_iff.mpr hlt
  have hmem : ∀ j, j ∈ g ↔ j ∈ g' := fun j =>
    (h.mem_group_iff hg hi hx).trans (h'.mem_group_iff hg' hi' hx).symm
  have hperm : g.Perm g' := (List.perm_ext_iff_of_nodup
    ((h.ordered g hg).imp ne_of_lt) ((h'.ordered g' hg').imp ne_of_lt)).mpr hmem
  have hsame : g = g' := hperm.eq_of_pairwise (fun a b _ _ hab hba => absurd (hab.trans hba)
    (lt_irrefl a)) (h.ordered g hg) (h'.ordered g' hg')
  exact hsame ▸ hg'

theorem nodup (h : Grouping same l groups) : groups.Nodup := by
  have hflat : groups.flatten.Nodup := h.once.nodup_iff.mpr List.nodup_range
  refine (List.nodup_flatten.mp hflat).2.imp_of_mem fun hg _ hdisj heq => ?_
  subst heq
  obtain ⟨i, hi⟩ := List.exists_mem_of_ne_nil _ fun hnil => h.ne_nil (hnil ▸ hg)
  exact hdisj hi hi

/-- **There is only one grouping**, up to the order of the groups. -/
theorem perm (h : Grouping same l groups) (h' : Grouping same l groups') :
    groups.Perm groups' :=
  (List.perm_ext_iff_of_nodup h.nodup h'.nodup).mpr fun _ =>
    ⟨fun hg => h.subset h' hg, fun hg => h'.subset h hg⟩

end Grouping

/-! ### Groups by keys -/

variable [DecidableEq κ] {f : α → κ} {keys : List κ}

/-- The positions of the elements with a key. -/
def positions (f : α → κ) (l : List α) (k : κ) : List ℕ :=
  (List.range l.length).filter fun i => (l.map f)[i]? = some k

theorem mem_positions {k : κ} {i : ℕ} : i ∈ positions f l k ↔ (l.map f)[i]? = some k := by
  rw [positions, List.mem_filter, List.mem_range, decide_eq_true_iff, and_iff_right_iff_imp]
  intro h
  have hlt := (List.getElem?_eq_some_iff.mp h).1
  rwa [List.length_map] at hlt

theorem lt_of_mem_positions {k : κ} {i : ℕ} (h : i ∈ positions f l k) : i < l.length :=
  List.mem_range.mp (List.mem_of_mem_filter h)

theorem nodup_positions (f : α → κ) (l : List α) (k : κ) : (positions f l k).Nodup :=
  List.Nodup.filter _ List.nodup_range

/-- One more element. -/
theorem positions_concat (f : α → κ) (l : List α) (x : α) (k : κ) : positions f (l ++ [x]) k =
    positions f l k ++ if f x = k then [l.length] else [] := by
  have hlast : ((l ++ [x]).map f)[l.length]? = some (f x) := by
    rw [List.getElem?_map, List.getElem?_concat_length, Option.map_some]
  have hinit : ∀ i ∈ List.range l.length,
      decide (((l ++ [x]).map f)[i]? = some k) = decide ((l.map f)[i]? = some k) := by
    intro i hi
    rw [List.getElem?_map, List.getElem?_append_left (List.mem_range.mp hi), ← List.getElem?_map]
  rw [positions, List.length_append, List.length_singleton, List.range_succ, List.filter_append,
    List.filter_congr hinit, ← positions, List.filter_singleton, hlast]
  simp only [Option.some_inj]
  by_cases hx : f x = k
  · rw [if_pos hx, decide_eq_true hx, cond_true]
  · rw [if_neg hx, decide_eq_false hx, cond_false]

/-- **The elements of a group** are those with its key, in the order of the list. -/
theorem elements_positions (f : α → κ) (l : List α) (k : κ) :
    elements l (positions f l k) = l.filter (f · = k) := by
  induction l using List.reverseRecOn with
  | nil => rfl
  | append_singleton l x ih =>
    have hinit : elements (l ++ [x]) (positions f l k) = elements l (positions f l k) :=
      List.filterMap_congr fun i hi => List.getElem?_append_left (lt_of_mem_positions hi)
    rw [positions_concat, elements, List.filterMap_append, ← elements, hinit, ih,
      List.filter_append, List.filter_singleton]
    by_cases hx : f x = k
    · rw [if_pos hx, decide_eq_true hx, cond_true, List.filterMap_cons_some
        List.getElem?_concat_length, List.filterMap_nil]
    · rw [if_neg hx, decide_eq_false hx, cond_false, List.filterMap_nil]

/-- **Each key once**, and for each of them the positions of its elements. -/
theorem grouping_of_keys (hsame : ∀ x ∈ l, ∀ y ∈ l, f x = f y ↔ same x y) (hkeys : keys.Nodup)
    (hmem : ∀ k, k ∈ keys ↔ ∃ x ∈ l, f x = k) : Grouping same l (keys.map (positions f l)) where
  once := by
    have hnodup : (keys.map (positions f l)).flatten.Nodup := by
      rw [List.nodup_flatten, List.forall_mem_map, List.pairwise_map]
      refine ⟨fun k _ => nodup_positions f l k, hkeys.imp fun hne i hi hi' => hne ?_⟩
      exact Option.some.inj ((mem_positions.mp hi).symm.trans (mem_positions.mp hi'))
    refine (List.perm_ext_iff_of_nodup hnodup List.nodup_range).mpr fun i => ?_
    rw [List.mem_flatten, List.mem_range]
    constructor
    · rintro ⟨g, hg, hi⟩
      obtain ⟨k, -, rfl⟩ := List.mem_map.mp hg
      exact lt_of_mem_positions hi
    · intro hi
      have hx : l[i]? = some l[i] := List.getElem?_eq_getElem hi
      refine ⟨_, List.mem_map_of_mem ((hmem (f l[i])).mpr ⟨_, List.getElem_mem hi, rfl⟩), ?_⟩
      rw [mem_positions, List.getElem?_map, hx, Option.map_some]
  ne_nil := by
    intro hnil
    obtain ⟨k, hk, hempty⟩ := List.mem_map.mp hnil
    obtain ⟨x, hx, rfl⟩ := (hmem k).mp hk
    obtain ⟨i, hi⟩ := List.mem_iff_getElem?.mp hx
    have hpos : i ∈ positions f l (f x) := by
      rw [mem_positions, List.getElem?_map, hi, Option.map_some]
    rw [hempty] at hpos
    exact List.not_mem_nil hpos
  ordered := by
    intro g hg
    obtain ⟨k, -, rfl⟩ := List.mem_map.mp hg
    exact List.Pairwise.filter _ List.pairwise_lt_range
  same_iff := by
    intro g hg i hi j x y hx hy
    obtain ⟨k, -, rfl⟩ := List.mem_map.mp hg
    rw [mem_positions, List.getElem?_map, hx, Option.map_some, Option.some_inj] at hi
    rw [mem_positions, List.getElem?_map, hy, Option.map_some, Option.some_inj, ← hi, eq_comm]
    exact hsame x (List.mem_of_getElem? hx) y (List.mem_of_getElem? hy)

end Candcpp
