import Mathlib

/-!
# Maps from keys to values

The containers `std::map` and `std::unordered_map`: a `Candcpp.Cpp.Map` is a partial
function, defined at the keys that have an entry.

A map that counts has the number of occurrences of each key of a list, and no entry for a
key that does not occur (`Candcpp.Cpp.Map.Counts`). It is kept by counting up, and by
counting down with the entry erased where it reaches zero.
-/

namespace Candcpp

namespace Cpp

/-- A map: at each key its value, if there is an entry. -/
abbrev Map (κ ν : Type) := κ → Option ν

namespace Map

variable {κ ν : Type} [DecidableEq κ]

/-- The map without entries. -/
def empty : Map κ ν := fun _ => none

/-- The map after `m[k] = v`. -/
def insert (m : Map κ ν) (k : κ) (v : ν) : Map κ ν := Function.update m k (some v)

/-- The map after `m.erase(k)`. -/
def erase (m : Map κ ν) (k : κ) : Map κ ν := Function.update m k none

/-- The value of `m[k]`, which makes an entry of value `default` if there is none. -/
def index (m : Map κ ν) (k : κ) (default : ν) : ν := (m k).getD default

/-- The map after `m[k]` has been read. -/
def touch (m : Map κ ν) (k : κ) (default : ν) : Map κ ν := m.insert k (m.index k default)

variable {m : Map κ ν} {k k' : κ}

@[simp] theorem insert_self (m : Map κ ν) (k : κ) (v : ν) : m.insert k v k = some v := by
  simp [insert]

theorem insert_of_ne (m : Map κ ν) (v : ν) (h : k' ≠ k) : m.insert k v k' = m k' := by
  simp [insert, h]

@[simp] theorem index_insert_self (m : Map κ ν) (k : κ) (v default : ν) :
    (m.insert k v).index k default = v := by
  rw [index, insert_self, Option.getD_some]

theorem index_insert_of_ne (m : Map κ ν) (v default : ν) (h : k' ≠ k) :
    (m.insert k v).index k' default = m.index k' default := by
  rw [index, insert_of_ne m v h, index]

omit [DecidableEq κ] in
theorem index_of_eq_some {v : ν} (h : m k = some v) (default : ν) : m.index k default = v := by
  rw [index, h, Option.getD_some]

/-- Reading an entry does not change the map. -/
theorem touch_of_eq_some {v : ν} (h : m k = some v) (default : ν) : m.touch k default = m := by
  rw [touch, index_of_eq_some h, insert, ← h, Function.update_eq_self]

/-- Reading an entry, or making it, does not change what is read. -/
theorem index_touch (m : Map κ ν) (k k' : κ) (default : ν) :
    (m.touch k default).index k' default = m.index k' default := by
  by_cases hk : k' = k
  · rw [hk, touch, index_insert_self]
  · rw [touch, index_insert_of_ne _ _ _ hk]

@[simp] theorem erase_self (m : Map κ ν) (k : κ) : m.erase k k = none := by
  simp [erase]

theorem erase_of_ne (m : Map κ ν) (h : k' ≠ k) : m.erase k k' = m k' := by
  simp [erase, h]

/-- **An entry after an insertion** is the new one, or was there. -/
theorem of_insert {v w : ν} (h : m.insert k v k' = some w) :
    (k' = k ∧ w = v) ∨ (k' ≠ k ∧ m k' = some w) := by
  by_cases hk : k' = k
  · subst hk
    rw [insert_self] at h
    exact Or.inl ⟨rfl, (Option.some.inj h).symm⟩
  · rw [insert_of_ne m v hk] at h
    exact Or.inr ⟨hk, h⟩

/-- **An entry that is left after another has been erased** was there. -/
theorem of_erase {w : ν} (h : m.erase k k' = some w) : k' ≠ k ∧ m k' = some w := by
  by_cases hk : k' = k
  · subst hk
    rw [erase_self] at h
    cases h
  · rw [erase_of_ne m hk] at h
    exact ⟨hk, h⟩

/-! ### Counting -/

/-- `m[k]++`. -/
def countUp (m : Map κ ℤ) (k : κ) : Map κ ℤ := m.insert k (m.index k 0 + 1)

/-- `if (--m[k] == 0) m.erase(k)`. -/
def countDown (m : Map κ ℤ) (k : κ) : Map κ ℤ :=
  let count := m.index k 0 - 1
  let m := m.insert k count
  if count = 0 then m.erase k else m

/-- The map has the number of occurrences of each element of the list, and nothing else. -/
def Counts (m : Map κ ℤ) (l : List κ) : Prop :=
  ∀ k, m k = if k ∈ l then some (l.count k : ℤ) else none

variable {m : Map κ ℤ} {l l' : List κ}

theorem counts_empty : (empty : Map κ ℤ).Counts [] := fun _ => (if_neg List.not_mem_nil).symm

/-- An entry is read as the number of occurrences, also where there is none. -/
theorem Counts.index_eq (h : m.Counts l) (k : κ) : m.index k 0 = l.count k := by
  rw [index, h k]
  split
  · rfl
  · rename_i hk
    rw [List.count_eq_zero.mpr hk]
    rfl

/-- Only how often each element occurs matters. -/
theorem Counts.perm (h : m.Counts l) (hl : l.Perm l') : m.Counts l' := by
  intro k
  rw [h k, hl.count_eq]
  simp only [hl.mem_iff]

/-- **One more occurrence is counted.** -/
theorem Counts.countUp (h : m.Counts l) (k : κ) : (m.countUp k).Counts (k :: l) := by
  intro k'
  by_cases hk : k' = k
  · subst hk
    rw [Map.countUp, insert_self, h.index_eq, if_pos List.mem_cons_self, List.count_cons_self]
    rfl
  · rw [Map.countUp, insert_of_ne _ _ hk, h k', List.count_cons_of_ne (Ne.symm hk)]
    simp only [List.mem_cons, hk, false_or]

/-- The elements of a list are counted one by one. -/
theorem Counts.foldl_countUp (h : m.Counts l) (l' : List κ) :
    (l'.foldl Map.countUp m).Counts (l'.reverse ++ l) := by
  induction l' generalizing m l with
  | nil => exact h
  | cons k l' ih =>
    rw [List.foldl_cons, List.reverse_cons, List.append_assoc]
    exact ih (h.countUp k)

/-- **One occurrence less is counted**, and the last one takes the entry with it. -/
theorem Counts.countDown (h : m.Counts (k :: l)) : (m.countDown k).Counts l := by
  have hcount : m.index k 0 - 1 = l.count k := by
    rw [h.index_eq, List.count_cons_self]
    omega
  have hold : ∀ k', k' ≠ k → m k' = if k' ∈ l then some (l.count k' : ℤ) else none := by
    intro k' hk
    rw [h k', List.count_cons_of_ne (Ne.symm hk)]
    simp only [List.mem_cons, hk, false_or]
  intro k'
  rw [Map.countDown, hcount]
  split
  · -- the last occurrence
    rename_i hzero
    by_cases hk : k' = k
    · subst hk
      rw [erase_self, if_neg (List.count_eq_zero.mp (Int.ofNat_eq_zero.mp hzero))]
    · rw [erase_of_ne _ hk, insert_of_ne _ _ hk, hold k' hk]
  · rename_i hpos
    by_cases hk : k' = k
    · subst hk
      rw [insert_self, if_pos]
      by_contra hmem
      exact hpos (by rw [List.count_eq_zero.mpr hmem]; rfl)
    · rw [insert_of_ne _ _ hk, hold k' hk]

end Map

end Cpp

end Candcpp
