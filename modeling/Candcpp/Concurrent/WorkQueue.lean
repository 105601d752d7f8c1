import Candcpp.Concurrent.WaitSet

/-!
# Workers at a queue

The consumers' side of a pool of threads: workers that take tasks from a queue, wait on a
condition variable while there are none, and leave when they are told to stop and the
queue is empty. Who puts the tasks into the queue is left open.

A task is a number. The state keeps a history: the tasks in the order in which they were
put in and taken out, and which worker has executed which task. What holds of every pool
of this kind is in two invariants, and a third that adds how far the destructor of the
pool has come.

| invariant | what it says |
|---|---|
| `Candcpp.WorkQueue.Inv` | the queue is a queue, no task is lost or executed twice, no worker leaves a task behind |
| `Candcpp.WorkQueue.Covered` | while a worker waits, there is someone on the way for every task in the queue |
| `Candcpp.WorkQueue.Consumers` | both of them; nobody sleeps through the end, and who has been joined has left |

The second one counts, next to the workers that are awake, the notifications that are
still to be sent. It is what rules out lost wake-ups: where nobody can take a step the
queue is empty (`Candcpp.WorkQueue.Covered.idle`). A pool proves of its own steps that
they keep the third, by the lemma of `Candcpp.WorkQueue.Consumers` for what the step does
to the queue.
-/

namespace Candcpp

/-- Where a worker is, between two atomic steps. -/
inductive Worker where
  /-- It is about to take the lock, for the first time or after a wait. -/
  | locking : Worker
  /-- It waits on the condition variable. -/
  | waiting : Worker
  /-- It executes a task. -/
  | running (task : ℕ) : Worker
  /-- It has left. -/
  | exited : Worker
  deriving DecidableEq, Repr

namespace Worker

/-- The task a worker executes. -/
def task? : Worker → Option ℕ
  | .running t => some t
  | _ => none

end Worker

/-- A queue of tasks with its workers, and what has happened to the tasks. -/
structure WorkQueue where
  workers : List Worker
  tasks : List ℕ
  stop : Bool
  /-- The tasks put into the queue, in order. -/
  accepted : List ℕ
  /-- The tasks taken out of it, in order. -/
  dequeued : List ℕ
  /-- The executions that are over: which task, and by which worker. -/
  executed : List (ℕ × ℕ)
  deriving Repr

namespace WorkQueue

open WaitSet

/-! ### The operations -/

/-- An empty queue with `n` workers. -/
def create (n : ℕ) : WorkQueue where
  workers := List.replicate n .locking
  tasks := []
  stop := false
  accepted := []
  dequeued := []
  executed := []

/-- The worker `i` goes to sleep. -/
def sleep (s : WorkQueue) (i : ℕ) : WorkQueue := { s with workers := s.workers.set i .waiting }

/-- The worker `i` leaves. -/
def leave (s : WorkQueue) (i : ℕ) : WorkQueue := { s with workers := s.workers.set i .exited }

/-- The worker `i` takes the first task, `task`, and leaves the others. -/
def take (s : WorkQueue) (i task : ℕ) (others : List ℕ) : WorkQueue :=
  { s with
    workers := s.workers.set i (.running task)
    tasks := others
    dequeued := s.dequeued ++ [task] }

/-- The worker `i` has executed its task. -/
def finish (s : WorkQueue) (i task : ℕ) : WorkQueue :=
  { s with
    workers := s.workers.set i .locking
    executed := s.executed ++ [(task, i)] }

/-- A task is put into the queue. -/
def push (s : WorkQueue) (task : ℕ) : WorkQueue :=
  { s with tasks := s.tasks ++ [task], accepted := s.accepted ++ [task] }

/-- The workers are told to stop. -/
def close (s : WorkQueue) : WorkQueue := { s with stop := true }

/-- One worker is notified. -/
def notifyOne (s : WorkQueue) (who : Option ℕ) : Option WorkQueue :=
  (WaitSet.notifyOne .waiting .locking s.workers who).map fun l => { s with workers := l }

/-- All workers are notified. -/
def notifyAll (s : WorkQueue) : WorkQueue :=
  { s with workers := WaitSet.notifyAll .waiting .locking s.workers }

/-! ### No task is lost -/

/-- The tasks that are being executed. -/
def running (s : WorkQueue) : List ℕ := s.workers.filterMap Worker.task?

/-- **The invariant of the queue.** -/
structure Inv (s : WorkQueue) : Prop where
  /-- Tasks are taken out in the order in which they were put in. -/
  fifo : s.accepted = s.dequeued ++ s.tasks
  /-- No task is put in twice. -/
  nodup : s.accepted.Nodup
  /-- A task that was taken out is being executed, or has been, once. -/
  once : s.dequeued.Perm (s.executed.map Prod.fst ++ s.running)
  /-- Tasks are executed by the workers. -/
  owner : ∀ p ∈ s.executed, p.2 < s.workers.length
  /-- A worker leaves only when it is told to stop and nothing is left to do. -/
  left : .exited ∈ s.workers → s.stop = true ∧ s.tasks = []

/-- **A task has been executed exactly once**, by one of the workers. -/
def ExecutedOnce (s : WorkQueue) (t : ℕ) : Prop :=
  ∃ i < s.workers.length, (s.executed.filter fun p => p.1 = t) = [(t, i)]

variable {s s' : WorkQueue} {i t : ℕ} {l : List Worker} {others : List ℕ}

/-- Every task that was put in is in the queue, or is being executed, or has been. -/
theorem Inv.accounted (h : Inv s) :
    s.accepted.Perm (s.executed.map Prod.fst ++ s.running ++ s.tasks) := by
  rw [h.fifo]
  exact h.once.append_right s.tasks

/-- A list of pairs with different keys has one entry for each key. -/
theorem filter_key {e : List (ℕ × ℕ)} (hnodup : (e.map Prod.fst).Nodup) (hmem : (t, i) ∈ e) :
    (e.filter fun p => p.1 = t) = [(t, i)] := by
  induction e with
  | nil => cases hmem
  | cons p e ih =>
    rw [List.map_cons, List.nodup_cons] at hnodup
    rcases List.mem_cons.mp hmem with rfl | hmem
    · -- no later entry has the key of the first one
      rw [List.filter_cons_of_pos (by simp), List.filter_eq_nil_iff.mpr]
      rintro ⟨t', i'⟩ hp heq
      exact hnodup.1 (List.mem_map.mpr ⟨_, hp, of_decide_eq_true heq⟩)
    · have hne : p.1 ≠ t := by
        rintro rfl
        exact hnodup.1 (List.mem_map.mpr ⟨_, hmem, rfl⟩)
      rw [List.filter_cons_of_neg (by simpa using hne), ih hnodup.2 hmem]

/-- What has been executed has been executed once. -/
theorem Inv.executedOnce (h : Inv s) (ht : t ∈ s.executed.map Prod.fst) : s.ExecutedOnce t := by
  obtain ⟨⟨t, i⟩, hmem, rfl⟩ := List.mem_map.mp ht
  have hdeq : s.dequeued.Nodup := (List.nodup_append.mp (h.fifo ▸ h.nodup)).1
  have hkeys : (s.executed.map Prod.fst).Nodup :=
    (List.nodup_append.mp (h.once.nodup_iff.mp hdeq)).1
  exact ⟨i, h.owner _ hmem, filter_key hkeys hmem⟩

theorem inv_create (n : ℕ) : Inv (create n) where
  fifo := rfl
  nodup := List.nodup_nil
  once := by
    have hrun : (create n).running = [] := by
      refine List.filterMap_eq_nil_iff.mpr fun w hw => ?_
      rw [List.eq_of_mem_replicate hw]
      rfl
    rw [hrun]
    exact .refl _
  owner := fun p hp => absurd hp List.not_mem_nil
  left := fun h => by cases List.eq_of_mem_replicate h

/-- Workers that execute no task may move. -/
theorem Inv.move (h : Inv s) (hrun : l.filterMap Worker.task? = s.running)
    (hlen : l.length = s.workers.length)
    (hleft : .exited ∈ l → .exited ∈ s.workers ∨ (s.stop = true ∧ s.tasks = [])) :
    Inv { s with workers := l } where
  fifo := h.fifo
  nodup := h.nodup
  once := by
    change s.dequeued.Perm (s.executed.map Prod.fst ++ l.filterMap Worker.task?)
    rw [hrun]
    exact h.once
  owner := by
    intro p hp
    change p.2 < l.length
    rw [hlen]
    exact h.owner p hp
  left := by
    intro hl
    rcases hleft hl with hw | hw
    · exact h.left hw
    · exact hw

/-- The move of one worker between phases without a task. -/
theorem running_move {w w' : Worker} (hi : s.workers[i]? = some w) (hw : w.task? = none)
    (hw' : w'.task? = none) : (s.workers.set i w').filterMap Worker.task? = s.running := by
  obtain ⟨l₁, l₂, hl, hset⟩ := split hi
  rw [hset, running, hl, List.filterMap_append, List.filterMap_append,
    List.filterMap_cons_none hw, List.filterMap_cons_none hw']

theorem Inv.sleep (h : Inv s) (hi : s.workers[i]? = some .locking) : Inv (s.sleep i) := by
  refine h.move (running_move hi rfl rfl) List.length_set fun hl => Or.inl ?_
  exact mem_of_mem_move hl (by simp)

theorem Inv.leave (h : Inv s) (hi : s.workers[i]? = some .locking) (hstop : s.stop = true)
    (htasks : s.tasks = []) : Inv (s.leave i) :=
  h.move (running_move hi rfl rfl) List.length_set fun _ => Or.inr ⟨hstop, htasks⟩

/-- A worker that waits is woken. -/
theorem Inv.wake (h : Inv s) (hi : s.workers[i]? = some .waiting) :
    Inv { s with workers := s.workers.set i .locking } := by
  refine h.move (running_move hi rfl rfl) List.length_set fun hl => Or.inl ?_
  exact mem_of_mem_move hl (by simp)

theorem notifyOne_cases {who : Option ℕ} (h : s.notifyOne who = some s') :
    (.waiting ∉ s.workers ∧ s' = s) ∨
      ∃ i, s.workers[i]? = some .waiting ∧ s' = { s with workers := s.workers.set i .locking } := by
  obtain ⟨l, hl, rfl⟩ := Option.map_eq_some_iff.mp h
  rcases WaitSet.notifyOne_cases hl with ⟨hw, rfl⟩ | ⟨i, hi, rfl⟩
  · exact Or.inl ⟨hw, rfl⟩
  · exact Or.inr ⟨i, hi, rfl⟩

theorem Inv.notifyOne (h : Inv s) {who : Option ℕ} (hs : s.notifyOne who = some s') : Inv s' := by
  rcases notifyOne_cases hs with ⟨-, rfl⟩ | ⟨i, hi, rfl⟩
  · exact h
  · exact h.wake hi

theorem Inv.notifyAll (h : Inv s) : Inv s.notifyAll := by
  refine h.move (filterMap_notifyAll rfl) (length_notifyAll _ _ _) fun hl => Or.inl ?_
  rcases mem_notifyAll hl with hc | ⟨hw, -⟩
  · cases hc
  · exact hw

/-- **A task is taken out**: it was the first one put in of those that remained. -/
theorem Inv.take (h : Inv s) (hi : s.workers[i]? = some .locking) (ht : s.tasks = t :: others) :
    Inv (s.take i t others) where
  fifo := by
    change s.accepted = (s.dequeued ++ [t]) ++ others
    rw [h.fifo, ht, List.append_assoc, List.singleton_append]
  nodup := h.nodup
  once := by
    have hmove := filterMap_move hi (.running t) Worker.task?
    change ([] ++ (s.workers.set i (.running t)).filterMap Worker.task?).Perm
      ([t] ++ s.running) at hmove
    rw [List.nil_append] at hmove
    refine ((h.once.append_right [t]).trans ?_).trans (hmove.symm.append_left _)
    rw [List.append_assoc]
    exact List.perm_append_comm.append_left _
  owner := by
    intro p hp
    change p.2 < (s.workers.set i _).length
    rw [List.length_set]
    exact h.owner p hp
  left := by
    intro hl
    have hempty := (h.left (mem_of_mem_move hl (by simp))).2
    rw [ht] at hempty
    cases hempty

/-- **A task has been executed**, by the worker that has taken it. -/
theorem Inv.finish (h : Inv s) (hi : s.workers[i]? = some (.running t)) : Inv (s.finish i t) where
  fifo := h.fifo
  nodup := h.nodup
  once := by
    have hmove := filterMap_move hi .locking Worker.task?
    change ([t] ++ (s.workers.set i .locking).filterMap Worker.task?).Perm
      ([] ++ s.running) at hmove
    rw [List.nil_append] at hmove
    change s.dequeued.Perm ((s.executed ++ [(t, i)]).map Prod.fst ++ _)
    rw [List.map_append, List.append_assoc]
    exact h.once.trans (hmove.symm.append_left _)
  owner := by
    intro p hp
    change p.2 < (s.workers.set i _).length
    rw [List.length_set]
    rcases List.mem_append.mp hp with hp | hp
    · exact h.owner p hp
    · rw [List.mem_singleton.mp hp]
      exact (List.getElem?_eq_some_iff.mp hi).1
  left := by
    intro hl
    exact h.left (mem_of_mem_move hl (by simp))

/-- **A new task is put in**, while the workers are not told to stop. -/
theorem Inv.push (h : Inv s) (ht : t ∉ s.accepted) (hstop : s.stop = false) : Inv (s.push t) where
  fifo := by
    change s.accepted ++ [t] = s.dequeued ++ (s.tasks ++ [t])
    rw [h.fifo, List.append_assoc]
  nodup := by
    refine List.nodup_append.mpr ⟨h.nodup, List.nodup_singleton t, ?_⟩
    rintro a ha b hb rfl
    exact ht (List.mem_singleton.mp hb ▸ ha)
  once := h.once
  owner := h.owner
  left := by
    intro hl
    have htrue := (h.left hl).1
    rw [hstop] at htrue
    cases htrue

theorem Inv.close (h : Inv s) : Inv s.close where
  fifo := h.fifo
  nodup := h.nodup
  once := h.once
  owner := h.owner
  left := fun hl => ⟨rfl, (h.left hl).2⟩

/-- **Where nothing is left to do everything has been executed.** -/
theorem Inv.allDone (h : Inv s) (hrun : s.running = []) (htasks : s.tasks = []) :
    ∀ t ∈ s.accepted, s.ExecutedOnce t := by
  intro t ht
  have hmem := h.accounted.mem_iff.mp ht
  rw [hrun, htasks, List.append_nil, List.append_nil] at hmem
  exact h.executedOnce hmem

/-- **When every worker has left, everything is done**, if there was a worker. -/
theorem Inv.allLeft (h : Inv s) (hall : ∀ w ∈ s.workers, w = .exited) (hne : s.workers ≠ []) :
    s.tasks = [] ∧ ∀ t ∈ s.accepted, s.ExecutedOnce t := by
  obtain ⟨w, hw⟩ := List.exists_mem_of_ne_nil _ hne
  have htasks : s.tasks = [] := (h.left (hall w hw ▸ hw)).2
  have hrun : s.running = [] := by
    refine List.filterMap_eq_nil_iff.mpr fun w hw => ?_
    rw [hall w hw]
    rfl
  exact ⟨htasks, h.allDone hrun htasks⟩

/-! ### No task is begun twice -/

/-- **No task is begun a second time** from `s` to `s'`: a task that has been taken out is
executed by the worker that was already at it. -/
def Onward (s s' : WorkQueue) : Prop :=
  ∀ t ∈ s.dequeued, t ∈ s'.dequeued ∧
    ∀ i : ℕ, s'.workers[i]? = some (.running t) → s.workers[i]? = some (.running t)

theorem Onward.refl (s : WorkQueue) : Onward s s := fun _ ht => ⟨ht, fun _ h => h⟩

/-- A worker may move as long as it does not begin a task. -/
theorem onward_move {w : Worker} (hw : ∀ t, w ≠ .running t) (hdequeued : s'.dequeued = s.dequeued)
    (hworkers : s'.workers = s.workers.set i w) : Onward s s' := by
  refine fun t ht => ⟨hdequeued ▸ ht, fun j hj => ?_⟩
  rw [hworkers] at hj
  rcases getElem?_move hj with ⟨-, heq⟩ | ⟨-, hj⟩
  · exact absurd heq.symm (hw t)
  · exact hj

theorem onward_notifyOne {who : Option ℕ} (hs : s.notifyOne who = some s') : Onward s s' := by
  rcases notifyOne_cases hs with ⟨-, rfl⟩ | ⟨i, -, rfl⟩
  · exact .refl _
  · exact onward_move (w := .locking) (by rintro t ⟨⟩) rfl rfl

theorem onward_notifyAll : Onward s s.notifyAll := by
  refine fun t ht => ⟨ht, fun j hj => ?_⟩
  have hlook : _ = s.workers[j]?.map Worker.task? :=
    map_getElem?_notifyAll (w := Worker.waiting) (r := Worker.locking) rfl j
  have hrun : s.workers[j]?.map Worker.task? = some (some t) := by
    rw [← hlook]
    exact congrArg (Option.map Worker.task?) hj
  obtain ⟨w, hw, ht⟩ := Option.map_eq_some_iff.mp hrun
  cases w with
  | running t' => exact Option.some.inj ht ▸ hw
  | _ => cases ht

/-- The task that a worker takes had not been taken. -/
theorem Inv.onward_take (h : Inv s) (ht : s.tasks = t :: others) :
    Onward s (s.take i t others) := by
  have hnodup := h.nodup
  rw [h.fifo, ht] at hnodup
  refine fun t' ht' => ⟨List.mem_append_left _ ht', fun j hj => ?_⟩
  rcases getElem?_move hj with ⟨-, heq⟩ | ⟨-, hj⟩
  · obtain rfl := Worker.running.inj heq
    exact absurd rfl ((List.nodup_append.mp hnodup).2.2 t' ht' t' List.mem_cons_self)
  · exact hj

/-- A task that is being executed was put in. -/
theorem Inv.accepted_of_running (h : Inv s) (hi : s.workers[i]? = some (.running t)) :
    t ∈ s.accepted := by
  have hmem : t ∈ s.running := List.mem_filterMap.mpr ⟨_, List.mem_of_getElem? hi, rfl⟩
  rw [h.accounted.mem_iff]
  exact List.mem_append_left _ (List.mem_append_right _ hmem)

/-! ### Where the tasks come from -/

section Fed

variable {φ : Type} {callers callers' : List φ} {entered : φ → Bool} {c : ℕ} {p : φ}

/-- **The tasks are those of the callers that have put theirs in**, each numbered by its
caller. -/
def Fed (s : WorkQueue) (callers : List φ) (entered : φ → Bool) : Prop :=
  ∀ c, c ∈ s.accepted ↔ callers[c]?.map entered = some true

theorem fed_create (n : ℕ) (entered : φ → Bool) : Fed (create n) [] entered := fun _ =>
  iff_of_false List.not_mem_nil (by rintro ⟨⟩)

theorem Fed.notMem (h : Fed s callers entered) (hc : callers[c]? = some p)
    (hp : entered p = false) : c ∉ s.accepted := by
  rw [h c, hc, Option.map_some, hp]
  simp

/-- Callers may move as long as they put no task in. -/
theorem Fed.look (h : Fed s callers entered)
    (hl : ∀ c : ℕ, callers'[c]?.map entered = callers[c]?.map entered) :
    Fed s callers' entered := by
  intro c
  rw [hl]
  exact h c

/-- A caller more. -/
theorem Fed.concat (h : Fed s callers entered) (hp : entered p = false) :
    Fed s (callers ++ [p]) entered := fun c => (h c).trans (map_getElem?_concat hp c).symm

/-- A caller puts its task in. -/
theorem Fed.push (h : Fed s callers entered) (hc : callers[c]? = some p) {q : φ}
    (hq : entered q = true) : Fed (s.push c) (callers.set c q) entered := by
  intro d
  change d ∈ s.accepted ++ [c] ↔ _
  rw [List.mem_append, List.mem_singleton, h d]
  rcases eq_or_ne c d with rfl | hne
  · rw [getElem?_moved hc, Option.map_some, hq]
    exact iff_of_true (Or.inr rfl) rfl
  · rw [List.getElem?_set_ne hne]
    exact or_iff_left hne.symm

end Fed

/-! ### No notification is lost -/

/-- **Every task in the queue is covered**, while a worker waits: by a worker that is about
to look at the queue, or by one of the `k` notifications that are still to be sent. -/
def Covered (s : WorkQueue) (k : ℕ) : Prop :=
  .waiting ∈ s.workers → s.tasks.length ≤ s.workers.count .locking + k

variable {k : ℕ}

theorem covered_create (n k : ℕ) : Covered (create n) k := fun _ => Nat.zero_le _

/-- A worker goes to sleep at an empty queue. -/
theorem Covered.sleep (htasks : s.tasks = []) : Covered (s.sleep i) k := by
  intro _
  change s.tasks.length ≤ _
  rw [htasks]
  exact Nat.zero_le _

theorem Covered.leave (htasks : s.tasks = []) : Covered (s.leave i) k := by
  intro _
  change s.tasks.length ≤ _
  rw [htasks]
  exact Nat.zero_le _

/-- A worker that takes a task has covered one. -/
theorem Covered.take (h : Covered s k) (hi : s.workers[i]? = some .locking)
    (ht : s.tasks = t :: others) : Covered (s.take i t others) k := by
  intro hw
  have hcount : _ = s.workers.count .locking := count_leave hi (q := .running t) (by simp)
  have hle := h (mem_of_mem_move hw (by simp))
  rw [ht, List.length_cons] at hle
  change others.length ≤ (s.workers.set i (.running t)).count .locking + k
  omega

/-- A worker that wakes up covers a task more. -/
theorem Covered.wake (h : Covered s (k + 1)) (hi : s.workers[i]? = some .waiting) :
    Covered { s with workers := s.workers.set i .locking } k := by
  intro _
  have hcount : (s.workers.set i .locking).count .locking = _ := count_enter hi (by simp)
  have hle := h (List.mem_of_getElem? hi)
  change s.tasks.length ≤ (s.workers.set i .locking).count .locking + k
  omega

theorem Covered.finish (h : Covered s k) (hi : s.workers[i]? = some (.running t)) :
    Covered (s.finish i t) k := by
  intro hw
  have hcount : (s.workers.set i .locking).count .locking = _ := count_enter hi (by simp)
  have hle := h (mem_of_mem_move hw (by simp))
  change s.tasks.length ≤ (s.workers.set i .locking).count .locking + k
  omega

/-- Who puts a task in has a notification to send. -/
theorem Covered.push (h : Covered s k) : Covered (s.push t) (k + 1) := by
  intro hw
  have hle := h hw
  change (s.tasks ++ [t]).length ≤ s.workers.count .locking + (k + 1)
  rw [List.length_append, List.length_singleton]
  omega

theorem Covered.mono (h : Covered s k) {k' : ℕ} (hk : k ≤ k') : Covered s k' := fun hw =>
  (h hw).trans (by omega)

/-- **A notification is sent**: it wakes a worker, or there is none to be woken. -/
theorem Covered.notifyOne (h : Covered s (k + 1)) {who : Option ℕ}
    (hs : s.notifyOne who = some s') : Covered s' k := by
  rcases notifyOne_cases hs with ⟨hw, rfl⟩ | ⟨i, hi, rfl⟩
  · exact fun hc => absurd hc hw
  · exact h.wake hi

theorem Covered.notifyAll : Covered s.notifyAll k := fun hw =>
  absurd hw (notMem_notifyAll (by simp))

/-- **Where nobody is on the way the queue is empty**, and everything has been executed,
if there is a worker. -/
theorem Covered.idle (hcov : Covered s 0) (h : Inv s) (hne : s.workers ≠ [])
    (hlocking : .locking ∉ s.workers) (hrunning : ∀ t, .running t ∉ s.workers) :
    s.tasks = [] ∧ ∀ t ∈ s.accepted, s.ExecutedOnce t := by
  have htasks : s.tasks = [] := by
    obtain ⟨w, hw⟩ := List.exists_mem_of_ne_nil _ hne
    cases w with
    | locking => exact absurd hw hlocking
    | waiting =>
      -- while it sleeps every task is covered, and nobody is there to cover one
      have hle := hcov hw
      rw [List.count_eq_zero_of_not_mem hlocking] at hle
      exact List.length_eq_zero_iff.mp (by omega)
    | running t => exact absurd hw (hrunning t)
    | exited => exact (h.left hw).2
  have hrun : s.running = [] := by
    refine List.filterMap_eq_nil_iff.mpr fun w hw => ?_
    cases w with
    | running t => exact absurd hw (hrunning t)
    | _ => rfl
  exact ⟨htasks, h.allDone hrun htasks⟩

/-! ### The workers, while the pool is in use and while it is destroyed -/

/-- **The consumers' side of a pool.** There are `k` notifications still to be sent;
`notified` says that the destructor has woken all workers, and `joined j` that it has
joined the worker `j`. -/
structure Consumers (s : WorkQueue) (k : ℕ) (notified : Prop) (joined : ℕ → Prop) : Prop where
  inv : Inv s
  covered : Covered s k
  /-- The workers are told to stop before they are woken. -/
  stopped : notified → s.stop = true
  /-- Afterwards nobody goes to sleep again. -/
  awake : notified → .waiting ∉ s.workers
  /-- Who has been joined has left. -/
  exited : ∀ j w, joined j → s.workers[j]? = some w → w = .exited

variable {notified notified' : Prop} {joined joined' : ℕ → Prop}

theorem Consumers.create (n k : ℕ) (hnotified : ¬notified) (hjoined : ∀ j, ¬joined j) :
    Consumers (.create n) k notified joined where
  inv := inv_create n
  covered := covered_create n k
  stopped := fun h => absurd h hnotified
  awake := fun h => absurd h hnotified
  exited := fun j _ h => absurd h (hjoined j)

/-- Who moves has not been joined. -/
theorem Consumers.exited_move (h : Consumers s k notified joined) {w : Worker}
    (hi : s.workers[i]? = some w) (hw : w ≠ .exited) (w' : Worker) :
    ∀ j v, joined j → (s.workers.set i w')[j]? = some v → v = .exited := by
  rintro j v hj hv
  rcases getElem?_move hv with ⟨rfl, -⟩ | ⟨-, hv⟩
  · exact absurd (h.exited i w hj hi) hw
  · exact h.exited j v hj hv

/-- Who moves does not go to sleep. -/
theorem Consumers.awake_move (h : Consumers s k notified joined) {w' : Worker}
    (hw' : w' ≠ .waiting) (i : ℕ) : notified → .waiting ∉ s.workers.set i w' := by
  intro hn hmem
  exact h.awake hn (mem_of_mem_move hmem hw'.symm)

theorem Consumers.sleep (h : Consumers s k notified joined) (hi : s.workers[i]? = some .locking)
    (htasks : s.tasks = []) (hstop : s.stop = false) :
    Consumers (s.sleep i) k notified joined where
  inv := h.inv.sleep hi
  covered := .sleep htasks
  stopped := h.stopped
  awake := by
    intro hn
    have htrue := h.stopped hn
    rw [hstop] at htrue
    cases htrue
  exited := h.exited_move hi (by simp) _

theorem Consumers.leave (h : Consumers s k notified joined) (hi : s.workers[i]? = some .locking)
    (htasks : s.tasks = []) (hstop : s.stop = true) :
    Consumers (s.leave i) k notified joined where
  inv := h.inv.leave hi hstop htasks
  covered := .leave htasks
  stopped := h.stopped
  awake := h.awake_move (by simp) i
  exited := h.exited_move hi (by simp) _

theorem Consumers.take (h : Consumers s k notified joined) (hi : s.workers[i]? = some .locking)
    (ht : s.tasks = t :: others) : Consumers (s.take i t others) k notified joined where
  inv := h.inv.take hi ht
  covered := h.covered.take hi ht
  stopped := h.stopped
  awake := h.awake_move (by simp) i
  exited := h.exited_move hi (by simp) _

theorem Consumers.finish (h : Consumers s k notified joined)
    (hi : s.workers[i]? = some (.running t)) : Consumers (s.finish i t) k notified joined where
  inv := h.inv.finish hi
  covered := h.covered.finish hi
  stopped := h.stopped
  awake := h.awake_move (by simp) i
  exited := h.exited_move hi (by simp) _

/-- A notification wakes a worker. -/
theorem Consumers.wake (h : Consumers s (k + 1) notified joined)
    (hi : s.workers[i]? = some .waiting) :
    Consumers { s with workers := s.workers.set i .locking } k notified joined where
  inv := h.inv.wake hi
  covered := h.covered.wake hi
  stopped := h.stopped
  awake := h.awake_move (by simp) i
  exited := h.exited_move hi (by simp) _

theorem Consumers.mono (h : Consumers s k notified joined) {k' : ℕ} (hk : k ≤ k') :
    Consumers s k' notified joined :=
  { h with covered := h.covered.mono hk }

theorem Consumers.notifyOne (h : Consumers s (k + 1) notified joined) {who : Option ℕ}
    (hs : s.notifyOne who = some s') : Consumers s' k notified joined := by
  have hcov := h.covered.notifyOne hs
  rcases notifyOne_cases hs with ⟨-, rfl⟩ | ⟨i, hi, rfl⟩
  · exact { h with covered := hcov }
  · exact h.wake hi

theorem Consumers.push (h : Consumers s k notified joined) (ht : t ∉ s.accepted)
    (hstop : s.stop = false) : Consumers (s.push t) (k + 1) notified joined where
  inv := h.inv.push ht hstop
  covered := h.covered.push
  stopped := h.stopped
  awake := h.awake
  exited := h.exited

theorem Consumers.close (h : Consumers s k notified joined) :
    Consumers s.close k notified joined where
  inv := h.inv.close
  covered := h.covered
  stopped := fun _ => rfl
  awake := h.awake
  exited := h.exited

/-- **The destructor wakes everybody**, after it has told them to stop. -/
theorem Consumers.notifyAll (h : Consumers s k notified joined) (hstop : s.stop = true)
    (hjoined : ∀ j, ¬joined' j) : Consumers s.notifyAll k notified' joined' where
  inv := h.inv.notifyAll
  covered := .notifyAll
  stopped := fun _ => hstop
  awake := fun _ => notMem_notifyAll (by simp)
  exited := fun j _ hj => absurd hj (hjoined j)

/-- **When every worker has been joined, everything is done**, if there was a worker. -/
theorem Consumers.allJoined (h : Consumers s k notified joined) (hall : ∀ j, joined j)
    (hne : s.workers ≠ []) :
    (∀ w ∈ s.workers, w = .exited) ∧ s.tasks = [] ∧ ∀ t ∈ s.accepted, s.ExecutedOnce t := by
  have hexited : ∀ w ∈ s.workers, w = .exited := by
    intro w hw
    obtain ⟨j, hj⟩ := List.getElem?_of_mem hw
    exact h.exited j w (hall j) hj
  exact ⟨hexited, h.inv.allLeft hexited hne⟩

/-- The destructor has joined one worker more. -/
theorem Consumers.joinNext {m : ℕ} (h : Consumers s k notified fun j => j < m)
    (hm : s.workers[m]? = some .exited) : Consumers s k notified fun j => j < m + 1 := by
  refine { h with exited := fun j w hlt hj => ?_ }
  rcases Nat.lt_succ_iff_lt_or_eq.mp hlt with hlt | rfl
  · exact h.exited j w hlt hj
  · exact Option.some.inj (hj.symm.trans hm)

/-- The destructor has joined all workers. -/
theorem Consumers.joinLast {m : ℕ} (h : Consumers s k notified fun j => j < m)
    (hm : s.workers[m]? = none) : Consumers s k notified fun _ => True := by
  refine { h with exited := fun j w _ hj => h.exited j w ?_ hj }
  exact (List.getElem?_eq_some_iff.mp hj).1.trans_le (List.getElem?_eq_none_iff.mp hm)

end WorkQueue

end Candcpp
