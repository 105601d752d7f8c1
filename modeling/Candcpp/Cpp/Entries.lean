import Mathlib

/-!
# The entries of a table, and the removal that fills the hole with the last one

A table is a function of the position; the part of it in use is given by its bounds. The
list `Candcpp.Cpp.entries f i n` has the entries at the positions `i, …, n`.

A program that keeps no order among the entries removes one by moving the last entry into
its place. A loop that passes over the entries while it removes some must look at the same
position again, where there is now another entry: `Candcpp.Cpp.entries_remove` says that it
has then still to see exactly what it would have seen had it moved on.
-/

namespace Candcpp

namespace Cpp

variable {α β : Type}

/-- The entries at the positions `i, …, n`. -/
def entries (f : ℕ → α) (i n : ℕ) : List α := (List.range' i (n + 1 - i)).map f

variable {f g : ℕ → α} {i n : ℕ}

theorem mem_entries {x : α} : x ∈ entries f i n ↔ ∃ k, i ≤ k ∧ k ≤ n ∧ f k = x := by
  rw [entries, List.mem_map]
  constructor
  · rintro ⟨k, hk, rfl⟩
    rw [List.mem_range'_1] at hk
    exact ⟨k, hk.1, by omega, rfl⟩
  · rintro ⟨k, hi, hn, rfl⟩
    exact ⟨k, List.mem_range'_1.mpr ⟨hi, by omega⟩, rfl⟩

/-- Only the entries at the positions in use matter. -/
theorem entries_congr (h : ∀ k, i ≤ k → k ≤ n → f k = g k) : entries f i n = entries g i n := by
  refine List.map_congr_left fun k hk => ?_
  rw [List.mem_range'_1] at hk
  exact h k hk.1 (by omega)

theorem map_entries (f : ℕ → α) (φ : α → β) (i n : ℕ) :
    (entries f i n).map φ = entries (fun k => φ (f k)) i n := by
  rw [entries, entries, List.map_map]
  rfl

/-- Where the entries are different, so are those of different positions. -/
theorem entries_inj (h : (entries f i n).Nodup) {j k : ℕ} (hj : i ≤ j) (hjn : j ≤ n) (hk : i ≤ k)
    (hkn : k ≤ n) (hjk : f j = f k) : j = k :=
  List.inj_on_of_nodup_map h (List.mem_range'_1.mpr ⟨hj, by omega⟩)
    (List.mem_range'_1.mpr ⟨hk, by omega⟩) hjk

/-- There is nothing behind the last position. -/
theorem entries_nil (h : n < i) : entries f i n = [] := by
  rw [entries, show n + 1 - i = 0 by omega]
  rfl

/-- The first entry. -/
theorem entries_cons (h : i ≤ n) : entries f i n = f i :: entries f (i + 1) n := by
  rw [entries, show n + 1 - i = (n + 1 - (i + 1)) + 1 by omega, List.range'_succ]
  rfl

/-- The last entry. -/
theorem entries_concat (h : i ≤ n + 1) : entries f i (n + 1) = entries f i n ++ [f (n + 1)] := by
  rw [entries, show n + 1 + 1 - i = (n + 1 - i) + 1 by omega, List.range'_concat, List.map_append,
    show i + 1 * (n + 1 - i) = n + 1 by omega]
  rfl

/-- The entries in front of a position, and the others. -/
theorem entries_append {k : ℕ} (hi : i ≤ k + 1) (hk : k ≤ n) :
    entries f i k ++ entries f (k + 1) n = entries f i n := by
  have hrange : List.range' i (k + 1 - i) ++ List.range' (k + 1) (n + 1 - (k + 1)) =
      List.range' i (n + 1 - i) := by
    have happend := List.range'_append_1 (s := i) (m := k + 1 - i) (n := n + 1 - (k + 1))
    rwa [show i + (k + 1 - i) = k + 1 by omega,
      show k + 1 - i + (n + 1 - (k + 1)) = n + 1 - i by omega] at happend
  rw [entries, entries, entries, ← List.map_append, hrange]

/-- A new entry behind the last one. -/
theorem entries_push (h : i ≤ n + 1) (x : α) :
    entries (Function.update f (n + 1) x) i (n + 1) = entries f i n ++ [x] := by
  rw [entries_concat h, Function.update_self]
  refine congrArg (· ++ [x]) (entries_congr fun k _ hk => Function.update_of_ne ?_ _ _)
  omega

/-- **The removal that fills the hole**: from the position of the entry that is removed on,
there are the same entries as behind it before. -/
theorem entries_remove (h : i ≤ n + 1) :
    (entries (Function.update f i (f (n + 1))) i n).Perm (entries f (i + 1) (n + 1)) := by
  rcases Nat.lt_or_ge n i with hlast | hi
  · -- it was the last one
    rw [entries_nil hlast, entries_nil (by omega)]
  · have hrest : entries (Function.update f i (f (n + 1))) (i + 1) n = entries f (i + 1) n :=
      entries_congr fun k hk _ => Function.update_of_ne (by omega) _ _
    rw [entries_cons hi, Function.update_self, hrest, entries_concat (by omega)]
    exact (List.perm_append_singleton ..).symm

/-- **The removal takes one entry away**, wherever it is. -/
theorem entries_remove_perm {k : ℕ} (hi : i ≤ k) (hk : k ≤ n + 1) :
    (f k :: entries (Function.update f k (f (n + 1))) i n).Perm (entries f i (n + 1)) := by
  rcases Nat.lt_or_ge n k with hlast | hn
  · -- it was the last one
    obtain rfl : k = n + 1 := by omega
    rw [entries_concat hi, Function.update_eq_self]
    exact (List.perm_append_singleton ..).symm
  rcases Nat.eq_zero_or_pos k with rfl | hpos
  · obtain rfl : i = 0 := by omega
    rw [entries_cons (Nat.zero_le (n + 1))]
    exact (entries_remove hk).cons _
  · obtain ⟨j, rfl⟩ : ∃ j, k = j + 1 := ⟨k - 1, by omega⟩
    have hfront : entries (Function.update f (j + 1) (f (n + 1))) i j = entries f i j :=
      entries_congr fun m _ hm => Function.update_of_ne (by omega) _ _
    rw [← entries_append hi (show j ≤ n by omega), hfront,
      ← entries_append hi (show j ≤ n + 1 by omega), entries_cons hk]
    exact List.perm_middle.symm.trans (((entries_remove hk).cons _).append_left _)

/-! ### A pass over the entries -/

/-- **A pass over entries with a key each**: of those that were there at its start, each has
been seen or is still to be seen, and no key is seen twice. -/
structure Pass (start seen left : List (α × β)) : Prop where
  once : ((seen ++ left).map Prod.fst).Nodup
  covers : ∀ p ∈ start, p ∈ seen ++ left

variable {start seen left left' : List (α × β)} {p : α × β}

theorem Pass.begin (h : (start.map Prod.fst).Nodup) : Pass start [] start where
  once := h
  covers := fun _ hp => hp

/-- The next entry is seen. What is left may be rearranged. -/
theorem Pass.next (h : Pass start seen (p :: left)) (hleft : left'.Perm left) :
    Pass start (seen ++ [p]) left' := by
  have hperm : (seen ++ [p] ++ left').Perm (seen ++ p :: left) := by
    rw [List.append_assoc]
    exact (hleft.cons p).append_left seen
  exact
    { once := (hperm.map Prod.fst).nodup_iff.mpr h.once
      covers := fun q hq => hperm.mem_iff.mpr (h.covers q hq) }

/-- An entry with a new key is added. -/
theorem Pass.add (h : Pass start seen left) (hp : p.1 ∉ (seen ++ left).map Prod.fst) :
    Pass start seen (left ++ [p]) where
  once := by
    rw [← List.append_assoc, List.map_append, List.map_singleton]
    exact List.nodup_append.mpr ⟨h.once, List.nodup_singleton _, by
      intro a ha b hb hab
      rw [List.mem_singleton.mp hb] at hab
      exact hp (hab ▸ ha)⟩
  covers := fun q hq => by
    rw [← List.append_assoc]
    exact List.mem_append_left _ (h.covers q hq)

/-- **At the end** everything that was to be seen has been seen exactly once. -/
theorem Pass.seen_once [DecidableEq α] (h : Pass start seen []) (hp : p ∈ start) :
    p ∈ seen ∧ (seen.map Prod.fst).count p.1 = 1 := by
  have hseen := h.covers p hp
  have honce := h.once
  rw [List.append_nil] at hseen honce
  exact ⟨hseen, List.count_eq_one_of_mem honce (List.mem_map_of_mem hseen)⟩

/-- At no time has anything been seen twice. -/
theorem Pass.seen_le [DecidableEq α] (h : Pass start seen left) (k : α) :
    (seen.map Prod.fst).count k ≤ 1 := by
  have honce := h.once
  rw [List.map_append] at honce
  exact List.nodup_iff_count_le_one.mp (List.nodup_append.mp honce).1 k

end Cpp

end Candcpp
