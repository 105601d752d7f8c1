import Candcpp.Concurrent.WaitSet

/-!
# Threads that make a number of calls

A group of threads that run the same loop: each makes a number of calls, one after the
other, and is then finished. A call has one section under a mutex, which begins with a wait
on a condition variable: a thread takes the lock, and either joins the wait set or goes
through with the call.

`Candcpp.Calls` is the table of such threads, with the number of calls that each has still
to make. What an invariant needs to know of it are two numbers: the calls that are left
altogether (`Candcpp.Calls.total`), of which every call that goes through takes one, and the
threads that are about to take the lock.
-/

namespace Candcpp

/-- Where a thread is. -/
inductive Phase where
  /-- It is about to take the lock, for the first time or after a wait. -/
  | locking : Phase
  /-- It waits on the condition variable. -/
  | waiting : Phase
  /-- It has made all of its calls. -/
  | finished : Phase
  deriving DecidableEq, Repr

/-- The threads of a group: where each is, and how many calls it has still to make, the one
it is in included. -/
structure Calls where
  phases : List Phase
  left : List ℕ
  deriving DecidableEq, Repr

namespace Calls

open WaitSet

/-- Where a thread with `n` calls to make is, before it begins the next one. -/
def between (n : ℕ) : Phase := if n = 0 then .finished else .locking

/-- One thread for each number in the list, which makes so many calls. -/
def create (ns : List ℤ) : Calls where
  phases := ns.map fun n => between n.toNat
  left := ns.map Int.toNat

/-- The thread `i` joins the wait set. -/
def sleep (g : Calls) (i : ℕ) : Calls := { g with phases := g.phases.set i .waiting }

/-- The thread `i` wakes up, notified or not. -/
def wake (g : Calls) (i : ℕ) : Option Calls :=
  if g.phases[i]? = some .waiting then
    some { g with phases := g.phases.set i .locking }
  else
    none

/-- The thread `i` has gone through with a call. -/
def next (g : Calls) (i : ℕ) : Calls :=
  let n := (g.left[i]?).getD 0 - 1
  { phases := g.phases.set i (between n)
    left := g.left.set i n }

/-- `notify_one`. -/
def notifyOne (g : Calls) (woken : Option ℕ) : Option Calls :=
  (WaitSet.notifyOne .waiting .locking g.phases woken).map fun phases =>
    { g with phases := phases }

/-- The calls that are left, of all threads together. -/
def total (g : Calls) : ℕ := g.left.sum

/-- How many threads are about to take the lock. -/
def locking (g : Calls) : ℕ := g.phases.count .locking

/-- Some thread waits. -/
def Waiting (g : Calls) : Prop := .waiting ∈ g.phases

/-- A thread is finished exactly when it has no call to make. -/
def Ok (g : Calls) : Prop :=
  g.phases.map (decide <| · = Phase.finished) = g.left.map (decide <| · = 0)

variable {g g' : Calls} {i : ℕ} {woken : Option ℕ}

/-! ### What a group knows of its threads -/

theorem between_finished (n : ℕ) : between n = .finished ↔ n = 0 := by
  rw [between]
  split
  · rename_i hn
    exact iff_of_true rfl hn
  · rename_i hn
    exact iff_of_false (by rintro ⟨⟩) hn

theorem between_ne_waiting (n : ℕ) : between n ≠ .waiting := by
  rw [between]
  split <;> rintro ⟨⟩

theorem Ok.getElem? (h : g.Ok) (i : ℕ) :
    (g.phases[i]?).map (decide <| · = Phase.finished) = (g.left[i]?).map (decide <| · = 0) := by
  rw [← List.getElem?_map, ← List.getElem?_map, h]

/-- A thread that is not finished has calls to make. -/
theorem Ok.left_pos (h : g.Ok) {p : Phase} (hi : g.phases[i]? = some p) (hp : p ≠ .finished) :
    ∃ n, g.left[i]? = some n ∧ 0 < n := by
  have hlook := h.getElem? i
  rw [hi, Option.map_some, decide_eq_false hp] at hlook
  obtain ⟨n, hn, hzero⟩ := Option.map_eq_some_iff.mp hlook.symm
  exact ⟨n, hn, Nat.pos_of_ne_zero (of_decide_eq_false hzero)⟩

/-- **Where calls are left**, some thread is not finished. -/
theorem Ok.exists_of_total (h : g.Ok) (hpos : 0 < g.total) :
    ∃ (i : ℕ) (p : Phase), g.phases[i]? = some p ∧ p ≠ .finished := by
  obtain ⟨n, hn, hne⟩ : ∃ n ∈ g.left, n ≠ 0 := by
    by_contra hall
    push Not at hall
    exact hpos.ne' (List.sum_eq_zero hall)
  obtain ⟨i, hi⟩ := List.getElem?_of_mem hn
  have hlook := h.getElem? i
  rw [hi, Option.map_some, decide_eq_false hne] at hlook
  obtain ⟨p, hp, hfin⟩ := Option.map_eq_some_iff.mp hlook
  exact ⟨i, p, hp, of_decide_eq_false hfin⟩

theorem left_le_total {n : ℕ} (hi : g.left[i]? = some n) : n ≤ g.total :=
  List.le_sum_of_mem (List.mem_of_getElem? hi)

/-! ### What the steps do to it -/

theorem ok_create (ns : List ℤ) : (create ns).Ok := by
  rw [Ok, create, List.map_map, List.map_map]
  refine List.map_congr_left fun n _ => ?_
  simp only [Function.comp_apply, between_finished]

theorem not_waiting_create (ns : List ℤ) : ¬(create ns).Waiting := by
  intro h
  obtain ⟨n, -, hn⟩ := List.mem_map.mp h
  exact between_ne_waiting _ hn

/-- A move between phases of a thread that has calls to make. -/
theorem Ok.move (h : g.Ok) {p q : Phase} (hi : g.phases[i]? = some p) (hp : p ≠ .finished)
    (hq : q ≠ .finished) : Ok { g with phases := g.phases.set i q } := by
  refine Eq.trans ?_ h
  refine List.ext_getElem? fun j => ?_
  rw [List.getElem?_map, List.getElem?_map]
  refine map_getElem?_move hi ?_ j
  rw [decide_eq_false hp, decide_eq_false hq]

theorem Ok.sleep (h : g.Ok) (hi : g.phases[i]? = some .locking) : (g.sleep i).Ok :=
  h.move hi (by rintro ⟨⟩) (by rintro ⟨⟩)

theorem wake_cases (hw : g.wake i = some g') :
    g.phases[i]? = some .waiting ∧ g' = { g with phases := g.phases.set i .locking } := by
  rw [wake] at hw
  split at hw
  · rename_i hi
    exact ⟨hi, (Option.some.inj hw).symm⟩
  · cases hw

theorem Ok.wake (h : g.Ok) (hw : g.wake i = some g') : g'.Ok := by
  obtain ⟨hi, rfl⟩ := wake_cases hw
  exact h.move hi (by rintro ⟨⟩) (by rintro ⟨⟩)

theorem total_wake (hw : g.wake i = some g') : g'.total = g.total := by
  obtain ⟨-, rfl⟩ := wake_cases hw
  rfl

/-- Who wakes up is about to take the lock. -/
theorem locking_wake (hw : g.wake i = some g') : g.Waiting ∧ g'.locking = g.locking + 1 := by
  obtain ⟨hi, rfl⟩ := wake_cases hw
  exact ⟨List.mem_of_getElem? hi, count_enter hi (by rintro ⟨⟩)⟩

theorem notifyOne_cases (hn : g.notifyOne woken = some g') :
    ∃ phases, WaitSet.notifyOne .waiting .locking g.phases woken = some phases ∧
      g' = { g with phases := phases } := by
  obtain ⟨phases, hphases, rfl⟩ := Option.map_eq_some_iff.mp hn
  exact ⟨phases, hphases, rfl⟩

theorem Ok.notifyOne (h : g.Ok) (hn : g.notifyOne woken = some g') : g'.Ok := by
  obtain ⟨phases, hphases, rfl⟩ := notifyOne_cases hn
  rcases WaitSet.notifyOne_cases hphases with ⟨-, rfl⟩ | ⟨j, hj, rfl⟩
  · exact h
  · exact h.move hj (by rintro ⟨⟩) (by rintro ⟨⟩)

theorem total_notifyOne (hn : g.notifyOne woken = some g') : g'.total = g.total := by
  obtain ⟨phases, -, rfl⟩ := notifyOne_cases hn
  rfl

/-- **A notification is not lost** on those who still wait. -/
theorem locking_notifyOne (hn : g.notifyOne woken = some g') (hw : g'.Waiting) :
    g.Waiting ∧ g'.locking = g.locking + 1 := by
  obtain ⟨phases, hphases, rfl⟩ := notifyOne_cases hn
  exact count_notifyOne hphases (by rintro ⟨⟩) hw

theorem notifyOne_exists (g : Calls) : ∃ woken g', g.notifyOne woken = some g' := by
  obtain ⟨woken, phases, hphases⟩ := WaitSet.notifyOne_exists .waiting .locking g.phases
  exact ⟨woken, { g with phases := phases }, Option.map_eq_some_iff.mpr ⟨phases, hphases, rfl⟩⟩

theorem Ok.next (h : g.Ok) (i : ℕ) : (g.next i).Ok := by
  rw [Ok, Calls.next, List.map_set, List.map_set, h]
  simp only [between_finished]

/-- **A call that goes through** is one of those that were left. -/
theorem Ok.total_next (h : g.Ok) (hi : g.phases[i]? = some .locking) :
    (g.next i).total + 1 = g.total := by
  obtain ⟨n, hn, hpos⟩ := h.left_pos hi (by rintro ⟨⟩)
  have hnext : (g.next i).total = (g.left.set i (n - 1)).sum := by
    rw [Calls.next, total, hn, Option.getD_some]
  have hsum := sum_move hn (n - 1) id
  rw [List.map_id, List.map_id, id_eq, id_eq] at hsum
  rw [hnext, total]
  omega

theorem waiting_next (hw : (g.next i).Waiting) : g.Waiting :=
  mem_of_mem_move hw (between_ne_waiting _).symm

/-- The thread that has gone through with its call is no longer about to take the lock,
unless it begins another one. -/
theorem locking_next (hi : g.phases[i]? = some .locking) : g.locking ≤ (g.next i).locking + 1 := by
  have hcount := count_move hi (between ((g.left[i]?).getD 0 - 1)) .locking
  rw [if_pos rfl] at hcount
  change g.phases.count .locking ≤ (g.phases.set i (between _)).count .locking + 1
  omega

/-! ### Where nobody can move -/

/-- **Where nobody is about to take the lock**, everybody is finished or somebody waits. -/
theorem finished_or_waiting (h : .locking ∉ g.phases) :
    (∀ p ∈ g.phases, p = .finished) ∨ g.Waiting := by
  by_cases hw : g.Waiting
  · exact Or.inr hw
  · refine Or.inl fun p hp => ?_
    match p, hp with
    | .locking, hp => exact absurd hp h
    | .waiting, hp => exact absurd hp hw
    | .finished, _ => rfl

/-- Where everybody is finished no call is left. -/
theorem Ok.total_eq_zero (h : g.Ok) (hall : ∀ p ∈ g.phases, p = .finished) : g.total = 0 := by
  by_contra hne
  obtain ⟨i, p, hi, hp⟩ := h.exists_of_total (Nat.pos_of_ne_zero hne)
  exact hp (hall p (List.mem_of_getElem? hi))

/-- Where somebody waits a call is left. -/
theorem Ok.total_pos (h : g.Ok) (hw : g.Waiting) : 0 < g.total := by
  obtain ⟨i, hi⟩ := List.getElem?_of_mem hw
  obtain ⟨n, hn, hpos⟩ := h.left_pos hi (by rintro ⟨⟩)
  exact hpos.trans_le (left_le_total hn)

end Calls

end Candcpp
