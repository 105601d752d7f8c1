import Candcpp.Cpp.Map

/-!
# Maps that are iterated in the order of their keys

The container `std::map`: a `Candcpp.Cpp.OrderedMap` is a map with finitely many entries,
which an iterator visits in the order of their keys. An iterator is the key of the entry at
which it stands, and `⊤` is the end of the map. It stays valid when other entries are
inserted or erased, and the entry it moves on to is the one that follows *then*.

A loop from `begin()` to `end()` is a `Candcpp.Cpp.OrderedMap.Walk`. Entries may be erased
while it is under way. Those that have not been are visited once
(`Candcpp.Cpp.OrderedMap.Walk.once`).
-/

namespace Candcpp

namespace Cpp

/-- A map with the finite set of the keys that have an entry. -/
structure OrderedMap (κ ν : Type) where
  val : Map κ ν
  keys : Finset κ
  mem_keys : ∀ k, k ∈ keys ↔ val k ≠ none

namespace OrderedMap

variable {κ ν : Type} [LinearOrder κ]

/-- The map without entries. -/
def empty : OrderedMap κ ν where
  val := Map.empty
  keys := ∅
  mem_keys := fun k => iff_of_false (Finset.notMem_empty k) fun h => h rfl

/-- The map after `m[k] = v`. -/
def insert (m : OrderedMap κ ν) (k : κ) (v : ν) : OrderedMap κ ν where
  val := m.val.insert k v
  keys := Insert.insert k m.keys
  mem_keys := by
    intro k'
    rw [Finset.mem_insert]
    by_cases hk : k' = k
    · subst hk
      rw [Map.insert_self]
      exact iff_of_true (Or.inl rfl) (by rintro ⟨⟩)
    · rw [Map.insert_of_ne _ _ hk, ← m.mem_keys]
      exact or_iff_right hk

/-- The map after `m.erase(k)`. -/
def erase (m : OrderedMap κ ν) (k : κ) : OrderedMap κ ν where
  val := m.val.erase k
  keys := m.keys.erase k
  mem_keys := by
    intro k'
    rw [Finset.mem_erase]
    by_cases hk : k' = k
    · subst hk
      rw [Map.erase_self]
      exact iff_of_false (fun h => h.1 rfl) fun h => h rfl
    · rw [Map.erase_of_ne _ hk, ← m.mem_keys]
      exact and_iff_right hk

/-- `m.begin()`. -/
def first (m : OrderedMap κ ν) : WithTop κ := m.keys.min

/-- The iterator at `k` after `++`. -/
def next (m : OrderedMap κ ν) (k : κ) : WithTop κ := (m.keys.filter (k < ·)).min

variable {m : OrderedMap κ ν} {k k' : κ}

omit [LinearOrder κ] in
theorem mem_keys_of_val {v : ν} (h : m.val k = some v) : k ∈ m.keys := by
  rw [m.mem_keys, h]
  rintro ⟨⟩

/-- **The first entry** has no other one before it. -/
theorem first_le (h : k ∈ m.keys) : m.first ≤ k := Finset.min_le h

theorem mem_of_first (h : m.first = k) : k ∈ m.keys := Finset.mem_of_min h

/-- **The next entry** follows, with no other one between. -/
theorem next_le (h : k' ∈ m.keys) (hlt : k < k') : m.next k ≤ k' :=
  Finset.min_le (Finset.mem_filter.mpr ⟨h, hlt⟩)

theorem mem_of_next (h : m.next k = k') : k' ∈ m.keys ∧ k < k' :=
  Finset.mem_filter.mp (Finset.mem_of_min h)

theorem lt_next (m : OrderedMap κ ν) (k : κ) : (k : WithTop κ) < m.next k := by
  rcases hnext : m.next k with _ | k'
  · exact WithTop.coe_lt_top k
  · exact WithTop.coe_lt_coe.mpr (mem_of_next hnext).2

/-! ### Loops over a map -/

/-- **A loop over a map** whose iterator stands at `iter`: it has visited the entries `seen`,
and `stayed` are entries that have not been erased since it began. -/
structure Walk (m : OrderedMap κ ν) (stayed : Finset κ) (iter : WithTop κ) (seen : List κ) :
    Prop where
  stayed_subset : stayed ⊆ m.keys
  seen_nodup : seen.Nodup
  seen_lt : ∀ k ∈ seen, (k : WithTop κ) < iter
  /-- Behind the iterator everything has been visited. -/
  seen_of_lt : ∀ k ∈ stayed, (k : WithTop κ) < iter → k ∈ seen

variable {stayed : Finset κ} {iter : WithTop κ} {seen : List κ}

theorem Walk.begin (m : OrderedMap κ ν) : Walk m m.keys m.first [] where
  stayed_subset := Finset.Subset.refl _
  seen_nodup := List.nodup_nil
  seen_lt := fun _ hk => absurd hk List.not_mem_nil
  seen_of_lt := fun _ hk hlt => absurd hlt (first_le hk).not_gt

/-- The entry at the iterator has been visited, and the iterator is moved on. -/
theorem Walk.advance (h : Walk m stayed k seen) : Walk m stayed (m.next k) (seen ++ [k]) where
  stayed_subset := h.stayed_subset
  seen_nodup := by
    refine List.nodup_append.mpr ⟨h.seen_nodup, List.nodup_singleton k, ?_⟩
    rintro a ha b hb rfl
    rw [List.mem_singleton.mp hb] at ha
    exact lt_irrefl _ (h.seen_lt k ha)
  seen_lt := by
    intro k' hk'
    rcases List.mem_append.mp hk' with hk' | hk'
    · exact (h.seen_lt k' hk').trans (lt_next m k)
    · rw [List.mem_singleton.mp hk']
      exact lt_next m k
  seen_of_lt := by
    intro k' hk' hlt
    rcases lt_trichotomy k' k with hlt' | rfl | hgt
    · exact List.mem_append_left _ (h.seen_of_lt k' hk' (WithTop.coe_lt_coe.mpr hlt'))
    · exact List.mem_append_right _ (List.mem_singleton.mpr rfl)
    · -- no entry lies between the iterator and where it has moved
      exact absurd hlt (next_le (h.stayed_subset hk') hgt).not_gt

/-- Entries may be erased, and others inserted, wherever the iterator stands. -/
theorem Walk.change (h : Walk m stayed iter seen) {m' : OrderedMap κ ν} {stayed' : Finset κ}
    (hstayed : stayed' ⊆ stayed) (hkeys : stayed' ⊆ m'.keys) : Walk m' stayed' iter seen where
  stayed_subset := hkeys
  seen_nodup := h.seen_nodup
  seen_lt := h.seen_lt
  seen_of_lt := fun k hk => h.seen_of_lt k (hstayed hk)

/-- **At the end of the loop** every entry that has not been erased has been visited once. -/
theorem Walk.once (h : Walk m stayed ⊤ seen) (hk : k ∈ stayed) : seen.count k = 1 :=
  List.count_eq_one_of_mem h.seen_nodup (h.seen_of_lt k hk (WithTop.coe_lt_top k))

end OrderedMap

end Cpp

end Candcpp
