import Candcpp.Lts
import Candcpp.Concurrent.WorkQueue

/-!
# The pool of threads with a bounded queue

The class `ThreadPool` of `cpp/thread/6_thread_pool.cpp`: threads that execute the tasks
which other threads enqueue, with one mutex and two condition variables.

The parties are the workers, the threads that call `enqueue`, and the thread that runs the
destructor. Each section under the mutex is one atomic step, as is each notification
outside of it, and a wait gives up the mutex and joins the wait set in the same step
(`Candcpp.WaitSet`). The scheduler chooses who moves, and whom a notification wakes; it may
also wake a thread that nobody has notified.

| code | steps |
|---|---|
| the constructor | `Candcpp.ThreadPool.create` |
| the workers' loop | `Candcpp.ThreadPool.worker`, `Candcpp.ThreadPool.finish` |
| `enqueue` | `Candcpp.ThreadPool.call`, `Candcpp.ThreadPool.enqueue`, `Candcpp.ThreadPool.notify` |
| `~ThreadPool` | `Candcpp.ThreadPool.destroy`, `Candcpp.ThreadPool.destructor` |

A call of `enqueue` is a thread of its own, and its task has the number of the call. The
pool's queue and its workers are a `Candcpp.WorkQueue`, which also records what has
happened to each task.
-/

namespace Candcpp

/-- Where a call of `enqueue` is. -/
inductive Caller where
  /-- It is about to take the lock, for the first time or after a wait. -/
  | locking : Caller
  /-- It waits on `enqueue_condition`. -/
  | waiting : Caller
  /-- Its task is in the queue; `task_condition.notify_one()` comes next. -/
  | notifying : Caller
  | returned : Caller
  | threw (what : String) : Caller
  deriving DecidableEq, Repr

/-- The call has put its task into the queue. -/
def Caller.entered : Caller → Bool
  | .notifying | .returned => true
  | _ => false

/-- Where the destructor is. -/
inductive Dtor where
  /-- It has not been called. -/
  | idle : Dtor
  /-- `task_condition.notify_all()` comes next. -/
  | notifyTasks : Dtor
  /-- `enqueue_condition.notify_all()` comes next. -/
  | notifyEnqueue : Dtor
  /-- The next thread to be joined is `threads[k]`. -/
  | joining (k : ℕ) : Dtor
  | returned : Dtor
  deriving DecidableEq, Repr

namespace Dtor

/-- The workers have been notified. -/
def notified : Dtor → Prop
  | .idle | .notifyTasks => False
  | _ => True

/-- The callers of `enqueue` have been notified. -/
def released : Dtor → Prop
  | .joining _ | .returned => True
  | _ => False

/-- The thread `j` has been joined. -/
def joined : Dtor → ℕ → Prop
  | .joining k, j => j < k
  | .returned, _ => True
  | _, _ => False

end Dtor

/-- How the call of a task ends. -/
inductive Outcome where
  | returns : Outcome
  /-- It throws a `std::exception`, which the worker catches. -/
  | throws (what : String) : Outcome
  deriving DecidableEq, Repr

structure ThreadPool where
  maxQueueSize : ℕ
  queue : WorkQueue
  callers : List Caller
  dtor : Dtor
  deriving Repr

namespace ThreadPool

open WaitSet

/-! ### The code -/

/-- The constructor, or the text of the exception it throws. -/
def create (numThreads : ℤ) (maxQueueSize : ℕ) : Except String ThreadPool :=
  let numThreads := if numThreads ≤ 0 then 1 else numThreads
  if maxQueueSize ≤ 0 then
    .error "max_queue_size must be > 0."
  else
    .ok
      { maxQueueSize := maxQueueSize
        queue := .create numThreads.toNat
        callers := []
        dtor := .idle }

/-- The section of the worker `i` under the lock: the wait, the test for the end, and the
first task. A caller of `enqueue` that waits is notified, `woken` if there is any. -/
def worker (s : ThreadPool) (i : ℕ) (woken : Option ℕ) : Option ThreadPool :=
  if s.queue.workers[i]? ≠ some .locking then
    none
  else if !(s.queue.stop || !s.queue.tasks.isEmpty) then
    -- `task_condition.wait(lock, …)`
    some { s with queue := s.queue.sleep i }
  else if s.queue.stop && s.queue.tasks.isEmpty then
    some { s with queue := s.queue.leave i }
  else
    match s.queue.tasks with
    -- `front()` of an empty queue
    | [] => none
    | task :: others =>
      (WaitSet.notifyOne .waiting .locking s.callers woken).map fun callers =>
        { s with
          queue := s.queue.take i task others
          callers := callers }

/-- The call `task()` of the worker `i` ends. Whether it returns or throws, the worker goes
on to the next round of its loop. -/
def finish (s : ThreadPool) (i : ℕ) : Outcome → Option ThreadPool
  | .returns | .throws _ =>
    match s.queue.workers[i]? with
    | some (.running task) => some { s with queue := s.queue.finish i task }
    | _ => none

/-- A thread calls `enqueue`. -/
def call (s : ThreadPool) : ThreadPool := { s with callers := s.callers ++ [.locking] }

/-- The section of the call `c` of `enqueue` under the lock. -/
def enqueue (s : ThreadPool) (c : ℕ) : Option ThreadPool :=
  if s.callers[c]? ≠ some .locking then
    none
  else if !(s.queue.stop || decide (s.queue.tasks.length ≤ s.maxQueueSize)) then
    -- `enqueue_condition.wait(lock, …)`
    some { s with callers := s.callers.set c .waiting }
  else if s.queue.stop then
    let what := "ThreadPool is stopped, can't enqueue new task."
    some { s with callers := s.callers.set c (.threw what) }
  else
    some
      { s with
        queue := s.queue.push c
        callers := s.callers.set c .notifying }

/-- The call `c` of `enqueue` notifies a worker, after it has given up the lock. -/
def notify (s : ThreadPool) (c : ℕ) (woken : Option ℕ) : Option ThreadPool :=
  if s.callers[c]? ≠ some .notifying then
    none
  else
    (s.queue.notifyOne woken).map fun queue =>
      { s with
        queue := queue
        callers := s.callers.set c .returned }

/-- The section of the destructor under the lock. -/
def destroy (s : ThreadPool) : Option ThreadPool :=
  match s.dtor with
  | .idle =>
    some
      { s with
        queue := s.queue.close
        dtor := .notifyTasks }
  | _ => none

/-- The destructor after it has given up the lock: it notifies everybody, and joins one
thread after the other. -/
def destructor (s : ThreadPool) : Option ThreadPool :=
  match s.dtor with
  | .idle | .returned => none
  | .notifyTasks =>
    some
      { s with
        queue := s.queue.notifyAll
        dtor := .notifyEnqueue }
  | .notifyEnqueue =>
    some
      { s with
        callers := WaitSet.notifyAll .waiting .locking s.callers
        dtor := .joining 0 }
  | .joining k =>
    match s.queue.workers[k]? with
    -- `join()` blocks until the thread has returned
    | none => some { s with dtor := .returned }
    | some .exited => some { s with dtor := .joining (k + 1) }
    | some _ => none

/-- A worker wakes up although nobody has notified it. -/
def wakeWorker (s : ThreadPool) (i : ℕ) : Option ThreadPool :=
  if s.queue.workers[i]? = some .waiting then
    some { s with queue := { s.queue with workers := s.queue.workers.set i .locking } }
  else
    none

/-- A caller of `enqueue` wakes up although nobody has notified it. -/
def wakeCaller (s : ThreadPool) (c : ℕ) : Option ThreadPool :=
  if s.callers[c]? = some .waiting then
    some { s with callers := s.callers.set c .locking }
  else
    none

/-! ### The transition system -/

/-- Who moves, and whom a notification wakes. -/
inductive Act where
  | worker (i : ℕ) (woken : Option ℕ) : Act
  | finish (i : ℕ) (outcome : Outcome) : Act
  | call : Act
  | enqueue (c : ℕ) : Act
  | notify (c : ℕ) (woken : Option ℕ) : Act
  | destroy : Act
  | destructor : Act
  | wakeWorker (i : ℕ) : Act
  | wakeCaller (c : ℕ) : Act
  deriving DecidableEq, Repr

namespace Act

/-- A new call of `enqueue`, or of the destructor. -/
def starts : Act → Bool
  | .call | .destroy => true
  | _ => false

/-- A wake-up that is due to no notification. -/
def spurious : Act → Bool
  | .wakeWorker _ | .wakeCaller _ => true
  | _ => false

end Act

def step (s : ThreadPool) : Act → Option ThreadPool
  | .worker i woken => s.worker i woken
  | .finish i outcome => s.finish i outcome
  | .call => some s.call
  | .enqueue c => s.enqueue c
  | .notify c woken => s.notify c woken
  | .destroy => s.destroy
  | .destructor => s.destructor
  | .wakeWorker i => s.wakeWorker i
  | .wakeCaller c => s.wakeCaller c

/-- The runs of a pool, from whatever its constructor returns. -/
def lts : Lts ThreadPool Act where
  init := fun s => ∃ numThreads maxQueueSize, create numThreads maxQueueSize = .ok s
  step := fun s a s' => s.step a = some s'

/-- **No thread can take a step**, apart from spurious wake-ups, until somebody calls
`enqueue` or the destructor. -/
def Quiet (s : ThreadPool) : Prop :=
  ∀ a : Act, a.starts = false → a.spurious = false → s.step a = none

/-! ### What a step does -/

section Steps

variable {s s' : ThreadPool}

theorem create_ok {numThreads : ℤ} {maxQueueSize : ℕ}
    (h : create numThreads maxQueueSize = .ok s) :
    ∃ n, 0 < n ∧ 0 < maxQueueSize ∧
      s = { maxQueueSize := maxQueueSize, queue := .create n, callers := [], dtor := .idle } := by
  rw [create] at h
  split at h
  · cases h
  · rename_i hpos
    refine ⟨_, ?_, by omega, (Except.ok.inj h).symm⟩
    split <;> omega

/-- The worker `i` goes to sleep, or leaves, or takes the first task. -/
theorem worker_cases {i : ℕ} {woken : Option ℕ} (h : s.worker i woken = some s') :
    s.queue.workers[i]? = some .locking ∧
      ((s.queue.tasks = [] ∧ s.queue.stop = false ∧
          s' = { s with queue := s.queue.sleep i }) ∨
        (s.queue.tasks = [] ∧ s.queue.stop = true ∧
          s' = { s with queue := s.queue.leave i }) ∨
        ∃ task others callers, s.queue.tasks = task :: others ∧
          WaitSet.notifyOne .waiting .locking s.callers woken = some callers ∧
          s' = { s with queue := s.queue.take i task others, callers := callers }) := by
  rw [worker] at h
  split at h
  · cases h
  · rename_i hi
    refine ⟨not_not.mp hi, ?_⟩
    rcases htasks : s.queue.tasks with _ | ⟨task, others⟩
    · rcases hstop : s.queue.stop with _ | _
      · rw [htasks, hstop] at h
        exact Or.inl ⟨rfl, rfl, (Option.some.inj h).symm⟩
      · rw [htasks, hstop] at h
        exact Or.inr (Or.inl ⟨rfl, rfl, (Option.some.inj h).symm⟩)
    · rw [htasks] at h
      simp only [List.isEmpty_cons, Bool.not_false, Bool.or_true, Bool.not_true, Bool.and_false,
        Bool.false_eq_true, if_false] at h
      obtain ⟨callers, hcallers, rfl⟩ := Option.map_eq_some_iff.mp h
      exact Or.inr (Or.inr ⟨task, others, callers, rfl, hcallers, rfl⟩)

theorem finish_cases {i : ℕ} {outcome : Outcome} (h : s.finish i outcome = some s') :
    ∃ task, s.queue.workers[i]? = some (.running task) ∧
      s' = { s with queue := s.queue.finish i task } := by
  cases outcome <;>
  · rw [finish] at h
    split at h
    · rename_i task hi
      exact ⟨task, hi, (Option.some.inj h).symm⟩
    · cases h

/-- A call of `enqueue` waits, or throws, or puts its task into the queue. -/
theorem enqueue_cases {c : ℕ} (h : s.enqueue c = some s') :
    s.callers[c]? = some .locking ∧
      ((s.queue.stop = false ∧ s.maxQueueSize < s.queue.tasks.length ∧
          s' = { s with callers := s.callers.set c .waiting }) ∨
        (s.queue.stop = true ∧ ∃ what,
          s' = { s with callers := s.callers.set c (.threw what) }) ∨
        (s.queue.stop = false ∧ s.queue.tasks.length ≤ s.maxQueueSize ∧
          s' = { s with queue := s.queue.push c, callers := s.callers.set c .notifying })) := by
  rw [enqueue] at h
  split at h
  · cases h
  · rename_i hc
    refine ⟨not_not.mp hc, ?_⟩
    rcases hstop : s.queue.stop with _ | _
    · rcases Nat.lt_or_ge s.maxQueueSize s.queue.tasks.length with hfull | hroom
      · rw [hstop, decide_eq_false (by omega)] at h
        exact Or.inl ⟨rfl, hfull, (Option.some.inj h).symm⟩
      · rw [hstop, decide_eq_true hroom] at h
        exact Or.inr (Or.inr ⟨rfl, hroom, (Option.some.inj h).symm⟩)
    · rw [hstop] at h
      exact Or.inr (Or.inl ⟨rfl, _, (Option.some.inj h).symm⟩)

theorem notify_cases {c : ℕ} {woken : Option ℕ} (h : s.notify c woken = some s') :
    s.callers[c]? = some .notifying ∧ ∃ queue, s.queue.notifyOne woken = some queue ∧
      s' = { s with queue := queue, callers := s.callers.set c .returned } := by
  rw [notify] at h
  split at h
  · cases h
  · rename_i hc
    obtain ⟨queue, hqueue, rfl⟩ := Option.map_eq_some_iff.mp h
    exact ⟨not_not.mp hc, queue, hqueue, rfl⟩

theorem destroy_cases (h : s.destroy = some s') :
    s.dtor = .idle ∧ s' = { s with queue := s.queue.close, dtor := .notifyTasks } := by
  rw [destroy] at h
  split at h
  · rename_i hd
    exact ⟨hd, (Option.some.inj h).symm⟩
  · cases h

theorem destructor_cases (h : s.destructor = some s') :
    (s.dtor = .notifyTasks ∧ s' = { s with queue := s.queue.notifyAll, dtor := .notifyEnqueue }) ∨
      (s.dtor = .notifyEnqueue ∧
        s' = { s with
          callers := WaitSet.notifyAll .waiting .locking s.callers
          dtor := .joining 0 }) ∨
      ∃ k, s.dtor = .joining k ∧
        ((s.queue.workers[k]? = none ∧ s' = { s with dtor := .returned }) ∨
          (s.queue.workers[k]? = some .exited ∧ s' = { s with dtor := .joining (k + 1) })) := by
  rw [destructor] at h
  split at h
  · cases h
  · cases h
  · rename_i hd
    exact Or.inl ⟨hd, (Option.some.inj h).symm⟩
  · rename_i hd
    exact Or.inr (Or.inl ⟨hd, (Option.some.inj h).symm⟩)
  · rename_i k hd
    refine Or.inr (Or.inr ⟨k, hd, ?_⟩)
    split at h
    · rename_i hk
      exact Or.inl ⟨hk, (Option.some.inj h).symm⟩
    · rename_i hk
      exact Or.inr ⟨hk, (Option.some.inj h).symm⟩
    · cases h

theorem wakeWorker_cases {i : ℕ} (h : s.wakeWorker i = some s') :
    s.queue.workers[i]? = some .waiting ∧
      s' = { s with queue := { s.queue with workers := s.queue.workers.set i .locking } } := by
  rw [wakeWorker] at h
  split at h
  · rename_i hi
    exact ⟨hi, (Option.some.inj h).symm⟩
  · cases h

theorem wakeCaller_cases {c : ℕ} (h : s.wakeCaller c = some s') :
    s.callers[c]? = some .waiting ∧ s' = { s with callers := s.callers.set c .locking } := by
  rw [wakeCaller] at h
  split at h
  · rename_i hc
    exact ⟨hc, (Option.some.inj h).symm⟩
  · cases h

end Steps

end ThreadPool

end Candcpp
