import Mathlib

/-!
# Condition variables as wait sets

The threads of a program as a table of *phases*, one for each thread: the points of its
code at which it can be found between two atomic steps. A thread that waits on a
condition variable is one in a phase `w`, and a notification moves it to a phase `r`, in
which it takes the lock again and looks at its condition once more.

`Candcpp.WaitSet.notifyOne` wakes one member of the wait set, if there is any, and leaves
it to the scheduler which one; `Candcpp.WaitSet.notifyAll` wakes them all. A spurious
wake-up is a `notifyOne` that nobody has asked for.

Invariants about lost notifications count threads, so the facts here say what a single
move of a thread does to the number of threads in each phase
(`Candcpp.WaitSet.count_move`), and to any list read off the table
(`Candcpp.WaitSet.filterMap_move`).
-/

namespace Candcpp

namespace WaitSet

variable {φ δ : Type}

/-! ### The move of one thread -/

/-- The table around a thread. -/
theorem split {l : List φ} {i : ℕ} {p : φ} (h : l[i]? = some p) :
    ∃ l₁ l₂, l = l₁ ++ p :: l₂ ∧ ∀ q, l.set i q = l₁ ++ q :: l₂ := by
  obtain ⟨hi, rfl⟩ := List.getElem?_eq_some_iff.mp h
  refine ⟨l.take i, l.drop (i + 1), ?_, fun q => List.set_eq_take_append_cons_drop.trans ?_⟩
  · rw [List.getElem_cons_drop, List.take_append_drop]
  · rw [if_pos hi]

/-- **A move takes a thread from one phase to another.** -/
theorem count_move [DecidableEq φ] {l : List φ} {i : ℕ} {p : φ} (h : l[i]? = some p) (q r : φ) :
    (l.set i q).count r + (if p = r then 1 else 0) = l.count r + (if q = r then 1 else 0) := by
  obtain ⟨l₁, l₂, rfl, hset⟩ := split h
  simp only [hset, List.count_append, List.count_cons, beq_iff_eq]
  omega

/-- The phases a move does not touch. -/
theorem count_move_of_ne [DecidableEq φ] {l : List φ} {i : ℕ} {p q r : φ} (h : l[i]? = some p)
    (hp : p ≠ r) (hq : q ≠ r) : (l.set i q).count r = l.count r := by
  have hcount := count_move h q r
  rwa [if_neg hp, if_neg hq] at hcount

/-- The phase a move leaves. -/
theorem count_leave [DecidableEq φ] {l : List φ} {i : ℕ} {p q : φ} (h : l[i]? = some p)
    (hq : q ≠ p) : (l.set i q).count p + 1 = l.count p := by
  have hcount := count_move h q p
  rwa [if_pos rfl, if_neg hq] at hcount

/-- The phase a move enters. -/
theorem count_enter [DecidableEq φ] {l : List φ} {i : ℕ} {p q : φ} (h : l[i]? = some p)
    (hp : p ≠ q) : (l.set i q).count q = l.count q + 1 := by
  have hcount := count_move h q q
  rwa [if_neg hp, if_pos rfl] at hcount

/-- **A list read off the table** changes by what is read off the thread that moves. -/
theorem filterMap_move {l : List φ} {i : ℕ} {p : φ} (h : l[i]? = some p) (q : φ)
    (f : φ → Option δ) :
    ((f p).toList ++ (l.set i q).filterMap f).Perm ((f q).toList ++ l.filterMap f) := by
  obtain ⟨l₁, l₂, rfl, hset⟩ := split h
  have hread : ∀ r, ((l₁ ++ r :: l₂).filterMap f).Perm
      ((f r).toList ++ (l₁.filterMap f ++ l₂.filterMap f)) := by
    intro r
    rw [List.filterMap_append]
    rcases hr : f r with _ | x
    · rw [List.filterMap_cons_none hr]
      exact .refl _
    · rw [List.filterMap_cons_some hr]
      exact List.perm_middle
  rw [hset]
  exact ((hread q).append_left _).trans
    ((List.perm_append_comm_assoc _ _ _).trans ((hread p).symm.append_left _))

/-- A thread in the table after a move is the one that has moved, or was there. -/
theorem mem_of_mem_move {l : List φ} {i : ℕ} {q r : φ} (h : r ∈ l.set i q) (hne : r ≠ q) :
    r ∈ l :=
  (List.mem_or_eq_of_mem_set h).resolve_right hne

/-- The thread that has moved. -/
theorem getElem?_moved {l : List φ} {i : ℕ} {p : φ} (h : l[i]? = some p) (q : φ) :
    (l.set i q)[i]? = some q :=
  List.getElem?_set_self (List.getElem?_eq_some_iff.mp h).1

/-- A move between phases that look alike is not seen. -/
theorem map_getElem?_move {l : List φ} {i : ℕ} {p : φ} (h : l[i]? = some p) {q : φ} {f : φ → δ}
    (hf : f q = f p) (j : ℕ) : (l.set i q)[j]?.map f = l[j]?.map f := by
  by_cases hij : i = j
  · subst hij
    rw [getElem?_moved h, h, Option.map_some, Option.map_some, hf]
  · rw [List.getElem?_set_ne hij]

/-- The thread at a place of the table after a move is the one that has moved, or was there. -/
theorem getElem?_move {l : List φ} {i j : ℕ} {q r : φ} (h : (l.set i q)[j]? = some r) :
    (i = j ∧ r = q) ∨ (i ≠ j ∧ l[j]? = some r) := by
  rw [List.getElem?_set] at h
  split at h
  · rename_i hij
    split at h
    · exact Or.inl ⟨hij, (Option.some.inj h).symm⟩
    · cases h
  · rename_i hij
    exact Or.inr ⟨hij, h⟩

/-- **A weight of the table** changes by the weights of the phase left and the phase entered. -/
theorem sum_move {l : List φ} {i : ℕ} {p : φ} (h : l[i]? = some p) (q : φ) (f : φ → ℕ) :
    ((l.set i q).map f).sum + f p = (l.map f).sum + f q := by
  obtain ⟨l₁, l₂, rfl, hset⟩ := split h
  simp only [hset, List.map_append, List.map_cons, List.sum_append, List.sum_cons]
  omega

/-- A new thread that does not look like any of those counted is not seen. -/
theorem map_getElem?_concat {l : List φ} {p : φ} {f : φ → Bool} (hf : f p = false) (j : ℕ) :
    (l ++ [p])[j]?.map f = some true ↔ l[j]?.map f = some true := by
  rcases Nat.lt_trichotomy j l.length with hlt | rfl | hgt
  · rw [List.getElem?_append_left hlt]
  · rw [List.getElem?_concat_length, List.getElem?_eq_none le_rfl, Option.map_some, hf]
    simp
  · rw [List.getElem?_eq_none hgt.le, List.getElem?_eq_none]
    rw [List.length_append, List.length_singleton]
    omega

/-! ### Notifications -/

section Notify

variable [DecidableEq φ] {w r : φ} {l l' : List φ}

/-- **`notify_one`**: the thread `who` is woken, or nobody when nobody waits. -/
def notifyOne (w r : φ) (l : List φ) : Option ℕ → Option (List φ)
  | none => if w ∈ l then none else some l
  | some j => if l[j]? = some w then some (l.set j r) else none

/-- **`notify_all`**: every waiting thread is woken. -/
def notifyAll (w r : φ) (l : List φ) : List φ := l.map fun p => if p = w then r else p

/-- A notification wakes nobody, or one thread that waits. -/
theorem notifyOne_cases {who : Option ℕ} (h : notifyOne w r l who = some l') :
    (w ∉ l ∧ l' = l) ∨ ∃ j, l[j]? = some w ∧ l' = l.set j r := by
  rcases who with _ | j
  · rw [notifyOne] at h
    split at h
    · cases h
    · rename_i hw
      exact Or.inl ⟨hw, (Option.some.inj h).symm⟩
  · rw [notifyOne] at h
    split at h
    · rename_i hj
      exact Or.inr ⟨j, hj, (Option.some.inj h).symm⟩
    · cases h

/-- A notification is always possible. -/
theorem notifyOne_exists (w r : φ) (l : List φ) : ∃ who l', notifyOne w r l who = some l' := by
  by_cases hw : w ∈ l
  · obtain ⟨j, hj⟩ := List.getElem?_of_mem hw
    exact ⟨some j, l.set j r, if_pos hj⟩
  · exact ⟨none, l, if_neg hw⟩

theorem length_notifyOne {who : Option ℕ} (h : notifyOne w r l who = some l') :
    l'.length = l.length := by
  rcases notifyOne_cases h with ⟨-, rfl⟩ | ⟨j, -, rfl⟩
  · rfl
  · exact List.length_set

/-- A notification is not seen where the two phases look alike. -/
theorem map_getElem?_notifyOne {who : Option ℕ} (h : notifyOne w r l who = some l') {f : φ → δ}
    (hf : f r = f w) (j : ℕ) : l'[j]?.map f = l[j]?.map f := by
  rcases notifyOne_cases h with ⟨-, rfl⟩ | ⟨i, hi, rfl⟩
  · rfl
  · exact map_getElem?_move hi hf j

theorem getElem?_notifyOne {who : Option ℕ} (h : notifyOne w r l who = some l') {j : ℕ} {p : φ}
    (hp : l'[j]? = some p) : p = r ∨ l[j]? = some p := by
  rcases notifyOne_cases h with ⟨-, rfl⟩ | ⟨i, -, rfl⟩
  · exact Or.inr hp
  · exact (getElem?_move hp).imp (fun h => h.2) fun h => h.2

/-- A notification adds at most what it costs to wake one thread. -/
theorem sum_notifyOne_le {who : Option ℕ} (h : notifyOne w r l who = some l') {f : φ → ℕ}
    (hf : f r ≤ f w + 1) : (l'.map f).sum ≤ (l.map f).sum + 1 := by
  rcases notifyOne_cases h with ⟨-, rfl⟩ | ⟨i, hi, rfl⟩
  · exact Nat.le_succ _
  · have hsum := sum_move hi r f
    omega

theorem count_notifyOne_of_ne {who : Option ℕ} (h : notifyOne w r l who = some l') {p : φ}
    (hw : w ≠ p) (hr : r ≠ p) : l'.count p = l.count p := by
  rcases notifyOne_cases h with ⟨-, rfl⟩ | ⟨i, hi, rfl⟩
  · rfl
  · exact count_move_of_ne hi hw hr

/-- **A notification is not lost** on those who still wait: it has woken another one. -/
theorem count_notifyOne {who : Option ℕ} (h : notifyOne w r l who = some l') (hne : r ≠ w)
    (hw : w ∈ l') : w ∈ l ∧ l'.count r = l.count r + 1 := by
  rcases notifyOne_cases h with ⟨hnot, rfl⟩ | ⟨i, hi, rfl⟩
  · exact absurd hw hnot
  · exact ⟨List.mem_of_getElem? hi, count_enter hi hne.symm⟩

theorem length_notifyAll (w r : φ) (l : List φ) : (notifyAll w r l).length = l.length :=
  List.length_map _

/-- A thread in the table after all have been woken is one that was woken, or was not
waiting. -/
theorem mem_notifyAll {p : φ} (h : p ∈ notifyAll w r l) : p = r ∨ (p ∈ l ∧ p ≠ w) := by
  obtain ⟨q, hq, rfl⟩ := List.mem_map.mp h
  split
  · exact Or.inl rfl
  · rename_i hne
    exact Or.inr ⟨hq, hne⟩

/-- Afterwards nobody waits. -/
theorem notMem_notifyAll (h : r ≠ w) : w ∉ notifyAll w r l := by
  intro hw
  rcases mem_notifyAll hw with rfl | ⟨-, hne⟩
  · exact h rfl
  · exact hne rfl

/-- Waking all is not seen where the two phases look alike. -/
theorem map_notifyAll {f : φ → δ} (hf : f r = f w) : (notifyAll w r l).map f = l.map f := by
  rw [notifyAll, List.map_map]
  refine List.map_congr_left fun p _ => ?_
  rw [Function.comp_apply]
  split
  · rename_i hp
    rw [hp, hf]
  · rfl

theorem map_getElem?_notifyAll {f : φ → δ} (hf : f r = f w) (j : ℕ) :
    (notifyAll w r l)[j]?.map f = l[j]?.map f := by
  rw [← List.getElem?_map, map_notifyAll hf, List.getElem?_map]

theorem sum_notifyAll_le {f : φ → ℕ} (hf : f r ≤ f w + 1) :
    ((notifyAll w r l).map f).sum ≤ (l.map f).sum + l.length := by
  induction l with
  | nil => exact le_rfl
  | cons p l ih =>
    have hp : f (if p = w then r else p) ≤ f p + 1 := by
      split
      · rename_i hw
        exact hw ▸ hf
      · exact Nat.le_succ _
    rw [notifyAll] at ih ⊢
    simp only [List.map_cons, List.sum_cons, List.length_cons]
    omega

theorem count_notifyAll_of_ne {p : φ} (hw : w ≠ p) (hr : r ≠ p) :
    (notifyAll w r l).count p = l.count p := by
  rw [notifyAll, List.count_eq_countP, List.count_eq_countP, List.countP_map]
  refine List.countP_congr fun q _ => ?_
  rw [Function.comp_apply, beq_iff_eq, beq_iff_eq]
  split
  · rename_i hq
    rw [hq]
    exact iff_of_false hr hw
  · rfl

theorem filterMap_notifyAll {f : φ → Option δ} (hf : f r = f w) :
    (notifyAll w r l).filterMap f = l.filterMap f := by
  rw [notifyAll, List.filterMap_map]
  refine List.filterMap_congr fun p _ => ?_
  rw [Function.comp_apply]
  split
  · rename_i hp
    rw [hp, hf]
  · rfl

end Notify

end WaitSet

end Candcpp
