import Candcpp.Lts
import Candcpp.Concurrent.WorkQueue

/-!
# The pool of threads of the reactor server

The class `ThreadPool` of `project/30days_make_cpp_server/5_main_sub_reactor`. It has one
condition variable, for the workers, and a queue without a bound: a call of `addTask` never
waits. Steps and phases are those of `Candcpp.ThreadPool` where the code is the same.

The constructor starts `size` threads, whatever `size` is. A pool with none of them accepts
tasks all the same, and its destructor has nobody to wait for. So the guarantee of the
other pool, that all accepted tasks have been executed when the destructor returns, is
equivalent to `1 ≤ size` here (`Candcpp.ReactorPool.all_executed_iff`).
-/

namespace Candcpp

namespace ReactorPool

/-- Where a call of `addTask` is. -/
inductive Caller where
  /-- It is about to take the lock. -/
  | locking : Caller
  /-- Its task is in the queue; `cv.notify_one()` comes next. -/
  | notifying : Caller
  | returned : Caller
  | threw (what : String) : Caller
  deriving DecidableEq, Repr

/-- The call has put its task into the queue. -/
def Caller.entered : Caller → Bool
  | .notifying | .returned => true
  | _ => false

/-- Where the destructor is. -/
inductive Dtor where
  /-- It has not been called. -/
  | idle : Dtor
  /-- `cv.notify_all()` comes next. -/
  | notifying : Dtor
  /-- The next thread to be joined is `threads[k]`. -/
  | joining (k : ℕ) : Dtor
  | returned : Dtor
  deriving DecidableEq, Repr

/-- The workers have been notified. -/
def Dtor.notified : Dtor → Prop
  | .joining _ | .returned => True
  | _ => False

/-- The thread `j` has been joined. -/
def Dtor.joined : Dtor → ℕ → Prop
  | .joining k, j => j < k
  | .returned, _ => True
  | _, _ => False

end ReactorPool

structure ReactorPool where
  queue : WorkQueue
  callers : List ReactorPool.Caller
  dtor : ReactorPool.Dtor
  deriving Repr

namespace ReactorPool

open WaitSet

/-! ### The code -/

/-- The constructor, with its loop `for (int i = 0; i < size; ++i)`. -/
def create (size : ℤ) : ReactorPool where
  queue := .create size.toNat
  callers := []
  dtor := .idle

/-- The default constructor. The subtraction is one of `unsigned int`, and its result is
converted to `int`. -/
def createDefault (hardwareConcurrency : BitVec 32) : ReactorPool :=
  create (hardwareConcurrency - 2).toInt

/-- The section of the worker `i` under the lock. -/
def worker (s : ReactorPool) (i : ℕ) : Option ReactorPool :=
  if s.queue.workers[i]? ≠ some .locking then
    none
  else if !(s.queue.stop || !s.queue.tasks.isEmpty) then
    -- `cv.wait(lock, …)`
    some { s with queue := s.queue.sleep i }
  else if s.queue.stop && s.queue.tasks.isEmpty then
    some { s with queue := s.queue.leave i }
  else
    match s.queue.tasks with
    -- `front()` of an empty queue
    | [] => none
    | task :: others => some { s with queue := s.queue.take i task others }

/-- The call `task()` of the worker `i` returns. -/
def finish (s : ReactorPool) (i : ℕ) : Option ReactorPool :=
  match s.queue.workers[i]? with
  | some (.running task) => some { s with queue := s.queue.finish i task }
  | _ => none

/-- A thread calls `addTask`. -/
def call (s : ReactorPool) : ReactorPool := { s with callers := s.callers ++ [.locking] }

/-- The section of the call `c` of `addTask` under the lock. -/
def addTask (s : ReactorPool) (c : ℕ) : Option ReactorPool :=
  if s.callers[c]? ≠ some .locking then
    none
  else if s.queue.stop then
    let what := "ThreadPool already stop, can't add task any more."
    some { s with callers := s.callers.set c (.threw what) }
  else
    some
      { s with
        queue := s.queue.push c
        callers := s.callers.set c .notifying }

/-- The call `c` of `addTask` notifies a worker, after it has given up the lock. -/
def notify (s : ReactorPool) (c : ℕ) (woken : Option ℕ) : Option ReactorPool :=
  if s.callers[c]? ≠ some .notifying then
    none
  else
    (s.queue.notifyOne woken).map fun queue =>
      { s with
        queue := queue
        callers := s.callers.set c .returned }

/-- The section of the destructor under the lock. -/
def destroy (s : ReactorPool) : Option ReactorPool :=
  match s.dtor with
  | .idle =>
    some
      { s with
        queue := s.queue.close
        dtor := .notifying }
  | _ => none

/-- The destructor after it has given up the lock. -/
def destructor (s : ReactorPool) : Option ReactorPool :=
  match s.dtor with
  | .idle | .returned => none
  | .notifying =>
    some
      { s with
        queue := s.queue.notifyAll
        dtor := .joining 0 }
  | .joining k =>
    match s.queue.workers[k]? with
    | none => some { s with dtor := .returned }
    | some .exited => some { s with dtor := .joining (k + 1) }
    | some _ => none

/-- A worker wakes up although nobody has notified it. -/
def wakeWorker (s : ReactorPool) (i : ℕ) : Option ReactorPool :=
  if s.queue.workers[i]? = some .waiting then
    some { s with queue := { s.queue with workers := s.queue.workers.set i .locking } }
  else
    none

/-- Who moves, and whom a notification wakes. -/
inductive Act where
  | worker (i : ℕ) : Act
  | finish (i : ℕ) : Act
  | call : Act
  | addTask (c : ℕ) : Act
  | notify (c : ℕ) (woken : Option ℕ) : Act
  | destroy : Act
  | destructor : Act
  | wakeWorker (i : ℕ) : Act
  deriving DecidableEq, Repr

def step (s : ReactorPool) : Act → Option ReactorPool
  | .worker i => s.worker i
  | .finish i => s.finish i
  | .call => some s.call
  | .addTask c => s.addTask c
  | .notify c woken => s.notify c woken
  | .destroy => s.destroy
  | .destructor => s.destructor
  | .wakeWorker i => s.wakeWorker i

/-- The runs of a pool that was constructed with `size`. -/
def lts (size : ℤ) : Lts ReactorPool Act where
  init := fun s => s = create size
  step := fun s a s' => s.step a = some s'

/-! ### The invariant -/

/-- **The invariant of a pool** of `n` threads. -/
structure Inv (n : ℕ) (s : ReactorPool) : Prop where
  consumers : s.queue.Consumers (s.callers.count .notifying) s.dtor.notified s.dtor.joined
  threads : s.queue.workers.length = n
  stopped : s.queue.stop = true ↔ s.dtor ≠ .idle
  fed : s.queue.Fed s.callers Caller.entered

variable {n : ℕ} {s s' : ReactorPool}

theorem inv_create (size : ℤ) : Inv size.toNat (create size) where
  consumers := .create _ _ (fun h => h) fun _ h => h
  threads := List.length_replicate
  stopped := iff_of_false (by rintro ⟨⟩) fun h => h rfl
  fed := WorkQueue.fed_create _ _

theorem Inv.worker (h : Inv n s) {i : ℕ} (hs : s.worker i = some s') : Inv n s' := by
  rw [ReactorPool.worker] at hs
  split at hs
  · cases hs
  · rename_i hi
    have hi : s.queue.workers[i]? = some .locking := not_not.mp hi
    rcases htasks : s.queue.tasks with _ | ⟨task, others⟩ <;> rw [htasks] at hs
    · -- at an empty queue a worker waits or leaves
      rcases hstop : s.queue.stop with _ | _ <;> rw [hstop] at hs
      · obtain rfl := Option.some.inj hs
        exact
          { h with
            consumers := h.consumers.sleep hi htasks hstop
            threads := List.length_set.trans h.threads }
      · obtain rfl := Option.some.inj hs
        exact
          { h with
            consumers := h.consumers.leave hi htasks hstop
            threads := List.length_set.trans h.threads }
    · simp only [List.isEmpty_cons, Bool.not_false, Bool.or_true, Bool.not_true, Bool.and_false,
        Bool.false_eq_true, if_false] at hs
      obtain rfl := Option.some.inj hs
      exact
        { h with
          consumers := h.consumers.take hi htasks
          threads := List.length_set.trans h.threads }

theorem Inv.finish (h : Inv n s) {i : ℕ} (hs : s.finish i = some s') : Inv n s' := by
  rw [ReactorPool.finish] at hs
  split at hs
  · rename_i task hi
    obtain rfl := Option.some.inj hs
    exact
      { h with
        consumers := h.consumers.finish hi
        threads := List.length_set.trans h.threads }
  · cases hs

theorem Inv.call (h : Inv n s) : Inv n s.call where
  consumers := by
    change s.queue.Consumers ((s.callers ++ [Caller.locking]).count .notifying) _ _
    have hnew : [Caller.locking].count .notifying = 0 := rfl
    rw [List.count_append, hnew]
    exact h.consumers
  threads := h.threads
  stopped := h.stopped
  fed := h.fed.concat rfl

theorem Inv.addTask (h : Inv n s) {c : ℕ} (hs : s.addTask c = some s') : Inv n s' := by
  rw [ReactorPool.addTask] at hs
  split at hs
  · cases hs
  · rename_i hc
    have hc : s.callers[c]? = some .locking := not_not.mp hc
    split at hs
    · obtain rfl := Option.some.inj hs
      refine
        { h with
          consumers := ?_
          fed := h.fed.look (map_getElem?_move hc rfl) }
      rw [count_move_of_ne hc (by simp) (by simp)]
      exact h.consumers
    · rename_i hstop
      obtain rfl := Option.some.inj hs
      refine
        { h with
          consumers := ?_
          fed := h.fed.push hc rfl }
      rw [count_enter hc (by simp)]
      exact h.consumers.push (h.fed.notMem hc rfl) (Bool.not_eq_true _ ▸ hstop)

theorem Inv.notify (h : Inv n s) {c : ℕ} {woken : Option ℕ} (hs : s.notify c woken = some s') :
    Inv n s' := by
  rw [ReactorPool.notify] at hs
  split at hs
  · cases hs
  · rename_i hc
    have hc : s.callers[c]? = some .notifying := not_not.mp hc
    obtain ⟨queue, hqueue, rfl⟩ := Option.map_eq_some_iff.mp hs
    have hcount : _ = s.callers.count .notifying := count_leave hc (q := .returned) (by simp)
    have hconsumers := h.consumers
    rw [← hcount] at hconsumers
    obtain ⟨workers, hworkers, rfl⟩ := Option.map_eq_some_iff.mp hqueue
    exact
      { consumers := hconsumers.notifyOne hqueue
        threads := (length_notifyOne hworkers).trans h.threads
        stopped := h.stopped
        fed := h.fed.look (map_getElem?_move hc rfl) }

theorem Inv.destroy (h : Inv n s) (hs : s.destroy = some s') : Inv n s' := by
  rw [ReactorPool.destroy] at hs
  split at hs
  · rename_i hd
    obtain rfl := Option.some.inj hs
    have hconsumers := h.consumers
    rw [hd] at hconsumers
    exact
      { h with
        consumers := hconsumers.close
        stopped := iff_of_true rfl (by rintro ⟨⟩) }
  · cases hs

theorem Inv.destructor (h : Inv n s) (hs : s.destructor = some s') : Inv n s' := by
  have hconsumers := h.consumers
  have hstopped : s.dtor ≠ .idle → s.queue.stop = true := h.stopped.mpr
  rw [ReactorPool.destructor] at hs
  rcases hd : s.dtor with _ | _ | k | _ <;> rw [hd] at hs hconsumers hstopped
  · cases hs
  · obtain rfl := Option.some.inj hs
    have hstop := hstopped (by rintro ⟨⟩)
    exact
      { h with
        consumers := hconsumers.notifyAll hstop Nat.not_lt_zero
        threads := (length_notifyAll Worker.waiting .locking _).trans h.threads
        stopped := iff_of_true hstop (by rintro ⟨⟩) }
  · have hstop := hstopped (by rintro ⟨⟩)
    dsimp only at hs
    split at hs
    · rename_i hk
      obtain rfl := Option.some.inj hs
      exact
        { h with
          consumers := hconsumers.joinLast hk
          stopped := iff_of_true hstop (by rintro ⟨⟩) }
    · rename_i hk
      obtain rfl := Option.some.inj hs
      exact
        { h with
          consumers := hconsumers.joinNext hk
          stopped := iff_of_true hstop (by rintro ⟨⟩) }
    · cases hs
  · cases hs

theorem Inv.wakeWorker (h : Inv n s) {i : ℕ} (hs : s.wakeWorker i = some s') : Inv n s' := by
  rw [ReactorPool.wakeWorker] at hs
  split at hs
  · rename_i hi
    obtain rfl := Option.some.inj hs
    exact
      { h with
        consumers := (h.consumers.mono (Nat.le_succ _)).wake hi
        threads := List.length_set.trans h.threads }
  · cases hs

/-- **Every step keeps the invariant.** -/
theorem Inv.step (h : Inv n s) {a : Act} (hs : s.step a = some s') : Inv n s' := by
  cases a with
  | worker i => exact h.worker hs
  | finish i => exact h.finish hs
  | call => exact Option.some.inj hs ▸ h.call
  | addTask c => exact h.addTask hs
  | notify c woken => exact h.notify hs
  | destroy => exact h.destroy hs
  | destructor => exact h.destructor hs
  | wakeWorker i => exact h.wakeWorker hs

theorem reachable_inv {size : ℤ} (h : (lts size).Reachable s) : Inv size.toNat s := by
  refine h.invariant ?_ fun s a s' _ hs hstep => hs.step hstep
  rintro s rfl
  exact inv_create size

/-- **No step begins a task a second time.** -/
theorem Inv.onward (h : Inv n s) {a : Act} (hs : s.step a = some s') :
    s.queue.Onward s'.queue := by
  cases a with
  | worker i =>
    change s.worker i = some s' at hs
    rw [ReactorPool.worker] at hs
    split at hs
    · cases hs
    split at hs
    · obtain rfl := Option.some.inj hs
      exact WorkQueue.onward_move (w := .waiting) (by rintro t ⟨⟩) rfl rfl
    split at hs
    · obtain rfl := Option.some.inj hs
      exact WorkQueue.onward_move (w := .exited) (by rintro t ⟨⟩) rfl rfl
    split at hs
    · cases hs
    -- the only step that begins a task
    · rename_i htasks
      obtain rfl := Option.some.inj hs
      exact h.consumers.inv.onward_take htasks
  | finish i =>
    change s.finish i = some s' at hs
    rw [ReactorPool.finish] at hs
    split at hs
    · obtain rfl := Option.some.inj hs
      exact WorkQueue.onward_move (w := .locking) (by rintro t ⟨⟩) rfl rfl
    · cases hs
  | call => exact Option.some.inj hs ▸ .refl _
  | addTask c =>
    change s.addTask c = some s' at hs
    rw [ReactorPool.addTask] at hs
    split at hs
    · cases hs
    split at hs
    · exact Option.some.inj hs ▸ .refl _
    · obtain rfl := Option.some.inj hs
      exact fun _ ht => ⟨ht, fun _ h => h⟩
  | notify c woken =>
    change s.notify c woken = some s' at hs
    rw [ReactorPool.notify] at hs
    split at hs
    · cases hs
    · obtain ⟨queue, hqueue, rfl⟩ := Option.map_eq_some_iff.mp hs
      exact WorkQueue.onward_notifyOne hqueue
  | destroy =>
    change s.destroy = some s' at hs
    rw [ReactorPool.destroy] at hs
    split at hs
    · obtain rfl := Option.some.inj hs
      exact fun _ ht => ⟨ht, fun _ h => h⟩
    · cases hs
  | destructor =>
    change s.destructor = some s' at hs
    rw [ReactorPool.destructor] at hs
    split at hs
    · cases hs
    · cases hs
    · exact Option.some.inj hs ▸ WorkQueue.onward_notifyAll
    · split at hs
      · exact Option.some.inj hs ▸ .refl _
      · exact Option.some.inj hs ▸ .refl _
      · cases hs
  | wakeWorker i =>
    change s.wakeWorker i = some s' at hs
    rw [ReactorPool.wakeWorker] at hs
    split at hs
    · obtain rfl := Option.some.inj hs
      exact WorkQueue.onward_move (w := .locking) (by rintro t ⟨⟩) rfl rfl
    · cases hs

theorem locking_of_worker {i : ℕ} (hs : s.step (.worker i) = some s') :
    s.queue.workers[i]? = some .locking := by
  change s.worker i = some s' at hs
  rw [ReactorPool.worker] at hs
  split at hs
  · cases hs
  · rename_i hi
    exact not_not.mp hi

/-- Only a call of `addTask` adds a caller; the other steps move one at most. -/
theorem length_callers {a : Act} (hs : s.step a = some s') (ha : a ≠ .call) :
    s'.callers.length = s.callers.length := by
  cases a <;> simp only [ReactorPool.step, ReactorPool.worker, ReactorPool.finish,
    ReactorPool.addTask, ReactorPool.notify, ReactorPool.destroy, ReactorPool.destructor,
    ReactorPool.wakeWorker, ne_eq, not_true_eq_false] at hs ha
  all_goals
    repeat' split at hs
    all_goals
      first
        | cases hs; done
        | obtain ⟨_, _, rfl⟩ := Option.map_eq_some_iff.mp hs
          exact List.length_set
        | obtain rfl := Option.some.inj hs
          first | rfl | exact List.length_set

/-! ### What the destructor leaves behind -/

/-- The default constructor starts no thread on a machine with up to two processors, or
with an unknown number of them, for which `hardware_concurrency()` returns zero. -/
theorem createDefault_threads {hardwareConcurrency : BitVec 32}
    (h : hardwareConcurrency.toNat < 2 ^ 31 + 2) :
    (createDefault hardwareConcurrency).queue.workers.length = hardwareConcurrency.toNat - 2 := by
  change (List.replicate (hardwareConcurrency - 2).toInt.toNat Worker.locking).length = _
  rw [List.length_replicate, BitVec.toInt_eq_toNat_cond, BitVec.toNat_sub]
  have h2 : (2 : BitVec 32).toNat = 2 := rfl
  rw [h2]
  omega

/-- A pool without threads accepts a task and is destroyed. -/
theorem reachable_abandoned {size : ℤ} (hsize : size ≤ 0) :
    (lts size).Reachable
      { queue := { WorkQueue.create 0 with tasks := [0], stop := true, accepted := [0] }
        callers := [.returned]
        dtor := .returned } := by
  have hcreate : create size = create 0 := by
    rw [create, create, Int.toNat_of_nonpos hsize]
    rfl
  have hinit : (lts size).Reachable (create 0) := .init hcreate.symm
  exact hinit.foldlM (f := step) (fun _ _ _ hs => hs)
    (l := [.call, .addTask 0, .notify 0 none, .destroy, .destructor, .destructor]) rfl

/-- **All accepted tasks have been executed when the destructor returns**, whatever the
schedule, exactly if the pool was given a thread. -/
theorem all_executed_iff (size : ℤ) :
    (∀ s, (lts size).Reachable s → s.dtor = .returned →
        ∀ t ∈ s.queue.accepted, s.queue.ExecutedOnce t) ↔ 1 ≤ size := by
  refine ⟨fun h => ?_, fun hsize s h hd => ?_⟩
  · -- without a thread nobody can have executed the task
    by_contra hsize
    obtain ⟨i, hi, -⟩ := h _ (reachable_abandoned (by omega)) rfl 0 (List.mem_singleton.mpr rfl)
    exact Nat.not_lt_zero i hi
  · have hinv := reachable_inv h
    have hconsumers := hinv.consumers
    rw [hd] at hconsumers
    have hne : s.queue.workers ≠ [] := by
      refine List.ne_nil_of_length_pos ?_
      rw [hinv.threads]
      omega
    exact (hconsumers.allJoined (fun _ => trivial) hne).2.2

/-- A pool of size zero leaves a task behind. -/
theorem not_all_executed :
    ¬∀ size s, (lts size).Reachable s → s.dtor = .returned →
      ∀ t ∈ s.queue.accepted, s.queue.ExecutedOnce t := by
  intro h
  obtain ⟨i, hi, -⟩ := h 0 _ (reachable_abandoned le_rfl) rfl 0 (List.mem_singleton.mpr rfl)
  exact Nat.not_lt_zero i hi

end ReactorPool

end Candcpp
