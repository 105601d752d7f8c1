import Candcpp.Thread.ThreadPool

/-!
# What the pool of threads guarantees

The runs of `Candcpp.ThreadPool`: any number of workers, any number of calls of `enqueue`,
every order of their steps.

The invariant `Candcpp.ThreadPool.Inv` has the consumers' side from
`Candcpp.WorkQueue.Consumers` – every call that still has to send its notification covers
one task – and adds the callers' side: who waits for room has been left behind by no
notification, since as long as somebody waits the queue and those who are about to look at
it again exceed `max_queue_size` together.

| result | |
|---|---|
| `Candcpp.ThreadPool.reachable_serves` | tasks are served in order, exactly once, and all of them before the destructor returns |
| `Candcpp.ThreadPool.run_within_iff` | the queue outgrows `max_queue_size` exactly when a call finds it at this size |
| `Candcpp.ThreadPool.quiet_idle` | where nobody can move the queue is empty and nobody waits for room |
-/

namespace Candcpp

namespace ThreadPool

open WaitSet

/-! ### The invariant -/

/-- **The invariant of the pool.** -/
structure Inv (s : ThreadPool) : Prop where
  consumers : s.queue.Consumers (s.callers.count .notifying) s.dtor.notified s.dtor.joined
  nonempty : 0 < s.queue.workers.length
  stopped : s.queue.stop = true ↔ s.dtor ≠ .idle
  fed : s.queue.Fed s.callers Caller.entered
  /-- Nobody waits once the destructor has notified the callers. -/
  released : s.dtor.released → .waiting ∉ s.callers
  /-- While a call waits for room, there is none left by those who are about to take it. -/
  room : .waiting ∈ s.callers → s.queue.stop = false →
    s.maxQueueSize < s.queue.tasks.length + s.callers.count .locking
  bound : s.queue.tasks.length ≤ s.maxQueueSize + 1

variable {s s' : ThreadPool}

theorem inv_create {numThreads : ℤ} {maxQueueSize : ℕ}
    (h : create numThreads maxQueueSize = .ok s) : Inv s := by
  obtain ⟨n, hn, -, rfl⟩ := create_ok h
  exact
    { consumers := .create n _ (fun h => h) fun _ h => h
      nonempty := by
        change 0 < (List.replicate n Worker.locking).length
        rwa [List.length_replicate]
      stopped := iff_of_false (by rintro ⟨⟩) fun h => h rfl
      fed := WorkQueue.fed_create n _
      released := fun h => h.elim
      room := fun h => absurd h List.not_mem_nil
      bound := Nat.zero_le _ }

theorem Inv.not_released (h : Inv s) (hstop : s.queue.stop = false) : ¬s.dtor.released := by
  have hidle : s.dtor = .idle := by
    by_contra hne
    rw [h.stopped.mpr hne] at hstop
    cases hstop
  rw [hidle]
  exact fun h => h

/-! ### The steps keep it -/

theorem Inv.worker (h : Inv s) {i : ℕ} {woken : Option ℕ} (hs : s.worker i woken = some s') :
    Inv s' := by
  obtain ⟨hi, ⟨htasks, hstop, rfl⟩ | ⟨htasks, hstop, rfl⟩ |
    ⟨task, others, callers, htasks, hcallers, rfl⟩⟩ := worker_cases hs
  · -- it goes to sleep
    exact
      { h with
        consumers := h.consumers.sleep hi htasks hstop
        nonempty := List.length_set.symm ▸ h.nonempty }
  · -- it leaves
    exact
      { h with
        consumers := h.consumers.leave hi htasks hstop
        nonempty := List.length_set.symm ▸ h.nonempty }
  · -- it takes a task, and notifies a caller
    have hlen : s.queue.tasks.length = others.length + 1 := by
      rw [htasks, List.length_cons]
    refine
      { consumers := ?_
        nonempty := List.length_set.symm ▸ h.nonempty
        stopped := h.stopped
        fed := h.fed.look (map_getElem?_notifyOne hcallers rfl)
        released := fun hr hw => ?_
        room := fun hw hstop => ?_
        bound := ?_ }
    · rw [show callers.count .notifying = s.callers.count .notifying from
        count_notifyOne_of_ne hcallers (by simp) (by simp)]
      exact h.consumers.take hi htasks
    · exact h.released hr (count_notifyOne hcallers (by simp) hw).1
    · -- who still waits has seen another caller woken in exchange for the task
      obtain ⟨hmem, hcount⟩ := count_notifyOne hcallers (by simp) hw
      have hroom := h.room hmem hstop
      change s.maxQueueSize < others.length + callers.count .locking
      omega
    · have hbound := h.bound
      change others.length ≤ s.maxQueueSize + 1
      omega

theorem Inv.finish (h : Inv s) {i : ℕ} {outcome : Outcome} (hs : s.finish i outcome = some s') :
    Inv s' := by
  obtain ⟨task, hi, rfl⟩ := finish_cases hs
  exact
    { h with
      consumers := h.consumers.finish hi
      nonempty := List.length_set.symm ▸ h.nonempty }

theorem Inv.call (h : Inv s) : Inv s.call where
  consumers := by
    change s.queue.Consumers ((s.callers ++ [Caller.locking]).count .notifying) _ _
    have hnew : [Caller.locking].count .notifying = 0 := rfl
    rw [List.count_append, hnew]
    exact h.consumers
  nonempty := h.nonempty
  stopped := h.stopped
  fed := h.fed.concat rfl
  released := by
    intro hr hw
    rcases List.mem_append.mp hw with hw | hw
    · exact h.released hr hw
    · cases List.mem_singleton.mp hw
  room := by
    intro hw hstop
    change s.maxQueueSize < s.queue.tasks.length + (s.callers ++ [Caller.locking]).count .locking
    rw [List.count_append]
    rcases List.mem_append.mp hw with hw | hw
    · have hroom := h.room hw hstop
      omega
    · cases List.mem_singleton.mp hw
  bound := h.bound

theorem Inv.enqueue (h : Inv s) {c : ℕ} (hs : s.enqueue c = some s') : Inv s' := by
  obtain ⟨hc, ⟨hstop, hfull, rfl⟩ | ⟨hstop, what, rfl⟩ | ⟨hstop, hroom, rfl⟩⟩ := enqueue_cases hs
  · -- it waits, at a queue that is full by itself
    refine
      { consumers := ?_
        nonempty := h.nonempty
        stopped := h.stopped
        fed := h.fed.look (map_getElem?_move hc rfl)
        released := fun hr => absurd hr (h.not_released hstop)
        room := fun _ _ => Nat.lt_add_right _ hfull
        bound := h.bound }
    rw [count_move_of_ne hc (by simp) (by simp)]
    exact h.consumers
  · -- it throws
    refine
      { consumers := ?_
        nonempty := h.nonempty
        stopped := h.stopped
        fed := h.fed.look (map_getElem?_move hc rfl)
        released := fun hr hw => h.released hr (mem_of_mem_move hw (by simp))
        room := fun _ hfalse => absurd (hstop.symm.trans hfalse) (by simp)
        bound := h.bound }
    rw [count_move_of_ne hc (by simp) (by simp)]
    exact h.consumers
  · -- it puts its task in
    have hnot : c ∉ s.queue.accepted := h.fed.notMem hc rfl
    refine
      { consumers := ?_
        nonempty := h.nonempty
        stopped := h.stopped
        fed := h.fed.push hc rfl
        released := fun hr => absurd hr (h.not_released hstop)
        room := fun hw _ => ?_
        bound := ?_ }
    · rw [count_enter hc (by simp)]
      exact h.consumers.push hnot hstop
    · -- the call has taken a place, and is no longer about to take one
      have hcount : _ = s.callers.count .locking := count_leave hc (q := .notifying) (by simp)
      have hold := h.room (mem_of_mem_move hw (by simp)) hstop
      change s.maxQueueSize <
        (s.queue.tasks ++ [c]).length + (s.callers.set c .notifying).count .locking
      rw [List.length_append, List.length_singleton]
      omega
    · change (s.queue.tasks ++ [c]).length ≤ _
      rw [List.length_append, List.length_singleton]
      exact Nat.succ_le_succ hroom

theorem Inv.notify (h : Inv s) {c : ℕ} {woken : Option ℕ} (hs : s.notify c woken = some s') :
    Inv s' := by
  obtain ⟨hc, queue, hqueue, rfl⟩ := notify_cases hs
  have hcount : _ = s.callers.count .notifying := count_leave hc (q := .returned) (by simp)
  have hlocking : (s.callers.set c .returned).count .locking = s.callers.count .locking :=
    count_move_of_ne hc (by simp) (by simp)
  -- the notification that is sent is one of those that were to be sent
  have hconsumers := h.consumers
  rw [← hcount] at hconsumers
  have hmem : .waiting ∈ s.callers.set c .returned → .waiting ∈ s.callers := fun hw =>
    mem_of_mem_move hw (by simp)
  obtain ⟨workers, hworkers, rfl⟩ := Option.map_eq_some_iff.mp hqueue
  exact
    { consumers := hconsumers.notifyOne hqueue
      nonempty := length_notifyOne hworkers ▸ h.nonempty
      stopped := h.stopped
      fed := h.fed.look (map_getElem?_move hc rfl)
      released := fun hr hw => h.released hr (hmem hw)
      room := fun hw hstop => hlocking ▸ h.room (hmem hw) hstop
      bound := h.bound }

theorem Inv.wakeWorker (h : Inv s) {i : ℕ} (hs : s.wakeWorker i = some s') : Inv s' := by
  obtain ⟨hi, rfl⟩ := wakeWorker_cases hs
  exact
    { h with
      consumers := (h.consumers.mono (Nat.le_succ _)).wake hi
      nonempty := List.length_set.symm ▸ h.nonempty }

theorem Inv.wakeCaller (h : Inv s) {c : ℕ} (hs : s.wakeCaller c = some s') : Inv s' := by
  obtain ⟨hc, rfl⟩ := wakeCaller_cases hs
  have hmem : .waiting ∈ s.callers := List.mem_of_getElem? hc
  refine
    { consumers := ?_
      nonempty := h.nonempty
      stopped := h.stopped
      fed := h.fed.look (map_getElem?_move hc rfl)
      released := fun hr => absurd hmem (h.released hr)
      room := fun _ hstop => ?_
      bound := h.bound }
  · rw [count_move_of_ne hc (by simp) (by simp)]
    exact h.consumers
  · rw [count_enter hc (by simp)]
    exact Nat.lt_succ_of_lt (h.room hmem hstop)

theorem Inv.destroy (h : Inv s) (hs : s.destroy = some s') : Inv s' := by
  obtain ⟨hd, rfl⟩ := destroy_cases hs
  have hconsumers := h.consumers
  rw [hd] at hconsumers
  exact
    { h with
      consumers := hconsumers.close
      stopped := iff_of_true rfl (by rintro ⟨⟩)
      released := fun hr => hr.elim
      room := fun _ hstop => by cases hstop }

theorem Inv.destructor (h : Inv s) (hs : s.destructor = some s') : Inv s' := by
  have hconsumers := h.consumers
  have hstopped : s.dtor ≠ .idle → s.queue.stop = true := h.stopped.mpr
  have hreleased := h.released
  obtain ⟨hd, rfl⟩ | ⟨hd, rfl⟩ | ⟨k, hd, ⟨hk, rfl⟩ | ⟨hk, rfl⟩⟩ := destructor_cases hs <;>
  rw [hd] at hconsumers hstopped hreleased
  · -- the workers are notified
    have hstop := hstopped (by rintro ⟨⟩)
    exact
      { h with
        consumers := hconsumers.notifyAll hstop fun _ hj => hj
        nonempty := (length_notifyAll Worker.waiting .locking _).symm ▸ h.nonempty
        stopped := iff_of_true hstop (by rintro ⟨⟩)
        released := fun hr => hr.elim }
  · -- the callers are notified
    refine
      { consumers := ?_
        nonempty := h.nonempty
        stopped := iff_of_true (hstopped (by rintro ⟨⟩)) (by rintro ⟨⟩)
        fed := h.fed.look (map_getElem?_notifyAll rfl)
        released := fun _ => notMem_notifyAll (by simp)
        room := fun hw => absurd hw (notMem_notifyAll (by simp))
        bound := h.bound }
    rw [count_notifyAll_of_ne (by simp) (by simp)]
    exact { hconsumers with exited := fun j w hj => absurd hj (Nat.not_lt_zero j) }
  · -- there is no thread left to be joined
    exact
      { h with
        consumers := hconsumers.joinLast hk
        stopped := iff_of_true (hstopped (by rintro ⟨⟩)) (by rintro ⟨⟩)
        released := fun _ => hreleased trivial }
  · -- a thread is joined
    exact
      { h with
        consumers := hconsumers.joinNext hk
        stopped := iff_of_true (hstopped (by rintro ⟨⟩)) (by rintro ⟨⟩)
        released := fun _ => hreleased trivial }

/-- **Every step keeps the invariant.** -/
theorem Inv.step (h : Inv s) {a : Act} (hs : s.step a = some s') : Inv s' := by
  cases a with
  | worker i woken => exact h.worker hs
  | finish i outcome => exact h.finish hs
  | call => exact Option.some.inj hs ▸ h.call
  | enqueue c => exact h.enqueue hs
  | notify c woken => exact h.notify hs
  | destroy => exact h.destroy hs
  | destructor => exact h.destructor hs
  | wakeWorker i => exact h.wakeWorker hs
  | wakeCaller c => exact h.wakeCaller hs

theorem reachable_inv (h : lts.Reachable s) : Inv s := by
  refine h.invariant ?_ fun s a s' _ hs hstep => hs.step hstep
  rintro s ⟨numThreads, maxQueueSize, hs⟩
  exact inv_create hs

/-! ### What a step does to the queue -/

/-- **Tasks are put in by calls of `enqueue` only**, each under the lock and while the pool
is not stopped. -/
theorem step_queue {a : Act} (hs : s.step a = some s') :
    s'.maxQueueSize = s.maxQueueSize ∧
      ((∃ c, a = .enqueue c ∧ s.callers[c]? = some .locking ∧ s.queue.stop = false ∧
          s.queue.tasks.length ≤ s.maxQueueSize ∧ s'.queue = s.queue.push c) ∨
        (s'.queue.accepted = s.queue.accepted ∧
          s'.queue.tasks.length ≤ s.queue.tasks.length)) := by
  cases a with
  | worker i woken =>
    obtain ⟨-, ⟨-, -, rfl⟩ | ⟨-, -, rfl⟩ | ⟨task, others, callers, htasks, -, rfl⟩⟩ :=
      worker_cases hs
    · exact ⟨rfl, Or.inr ⟨rfl, le_rfl⟩⟩
    · exact ⟨rfl, Or.inr ⟨rfl, le_rfl⟩⟩
    · refine ⟨rfl, Or.inr ⟨rfl, ?_⟩⟩
      rw [htasks]
      exact Nat.le_succ _
  | finish i outcome =>
    obtain ⟨task, -, rfl⟩ := finish_cases hs
    exact ⟨rfl, Or.inr ⟨rfl, le_rfl⟩⟩
  | call =>
    obtain rfl := Option.some.inj hs
    exact ⟨rfl, Or.inr ⟨rfl, le_rfl⟩⟩
  | enqueue c =>
    -- it waits for room, or throws, or puts its task in
    obtain ⟨hc, ⟨-, -, rfl⟩ | ⟨-, what, rfl⟩ | ⟨hstop, hroom, rfl⟩⟩ := enqueue_cases hs
    · exact ⟨rfl, Or.inr ⟨rfl, le_rfl⟩⟩
    · exact ⟨rfl, Or.inr ⟨rfl, le_rfl⟩⟩
    · exact ⟨rfl, Or.inl ⟨c, rfl, hc, hstop, hroom, rfl⟩⟩
  | notify c woken =>
    obtain ⟨-, queue, hqueue, rfl⟩ := notify_cases hs
    obtain ⟨workers, -, rfl⟩ := Option.map_eq_some_iff.mp hqueue
    exact ⟨rfl, Or.inr ⟨rfl, le_rfl⟩⟩
  | destroy =>
    obtain ⟨-, rfl⟩ := destroy_cases hs
    exact ⟨rfl, Or.inr ⟨rfl, le_rfl⟩⟩
  | destructor =>
    obtain ⟨-, rfl⟩ | ⟨-, rfl⟩ | ⟨k, -, ⟨-, rfl⟩ | ⟨-, rfl⟩⟩ := destructor_cases hs <;>
    exact ⟨rfl, Or.inr ⟨rfl, le_rfl⟩⟩
  | wakeWorker i =>
    obtain ⟨-, rfl⟩ := wakeWorker_cases hs
    exact ⟨rfl, Or.inr ⟨rfl, le_rfl⟩⟩
  | wakeCaller c =>
    obtain ⟨-, rfl⟩ := wakeCaller_cases hs
    exact ⟨rfl, Or.inr ⟨rfl, le_rfl⟩⟩

/-- **A call of `enqueue` that throws leaves the queue as it is.** -/
theorem step_threw {a : Act} (hs : s.step a = some s') {c : ℕ} {what : String}
    (hc : s.callers[c]? ≠ some (.threw what)) (hc' : s'.callers[c]? = some (.threw what)) :
    s'.queue = s.queue := by
  cases a with
  | worker i woken =>
    obtain ⟨-, ⟨-, -, rfl⟩ | ⟨-, -, rfl⟩ | ⟨task, others, callers, -, hcallers, rfl⟩⟩ :=
      worker_cases hs
    · exact absurd hc' hc
    · exact absurd hc' hc
    · -- a woken caller does not throw yet
      rcases getElem?_notifyOne hcallers hc' with h | h
      · cases h
      · exact absurd h hc
  | finish i outcome =>
    obtain ⟨task, -, rfl⟩ := finish_cases hs
    exact absurd hc' hc
  | call =>
    obtain rfl := Option.some.inj hs
    rfl
  | enqueue d =>
    obtain ⟨-, ⟨-, -, rfl⟩ | ⟨-, what, rfl⟩ | ⟨-, -, rfl⟩⟩ := enqueue_cases hs
    · rfl
    · rfl
    · rcases getElem?_move hc' with ⟨-, h⟩ | ⟨-, h⟩
      · cases h
      · exact absurd h hc
  | notify d woken =>
    obtain ⟨-, queue, -, rfl⟩ := notify_cases hs
    rcases getElem?_move hc' with ⟨-, h⟩ | ⟨-, h⟩
    · cases h
    · exact absurd h hc
  | destroy =>
    obtain ⟨-, rfl⟩ := destroy_cases hs
    exact absurd hc' hc
  | destructor =>
    obtain ⟨-, rfl⟩ | ⟨-, rfl⟩ | ⟨k, -, ⟨-, rfl⟩ | ⟨-, rfl⟩⟩ := destructor_cases hs
    · exact absurd hc' hc
    · rfl
    · rfl
    · rfl
  | wakeWorker i =>
    obtain ⟨-, rfl⟩ := wakeWorker_cases hs
    exact absurd hc' hc
  | wakeCaller d =>
    obtain ⟨-, rfl⟩ := wakeCaller_cases hs
    rfl

/-! ### Where nobody can move -/

theorem Quiet.locking_worker (hq : s.Quiet) : .locking ∉ s.queue.workers := by
  intro hmem
  obtain ⟨i, hi⟩ := List.getElem?_of_mem hmem
  obtain ⟨woken, callers, hcallers⟩ := notifyOne_exists .waiting .locking s.callers
  have hnone : s.worker i woken = none := hq (.worker i woken) rfl rfl
  rw [worker, if_neg (not_not.mpr hi)] at hnone
  split at hnone
  · cases hnone
  · rename_i hwake
    split at hnone
    · cases hnone
    · rename_i hgo
      rcases htasks : s.queue.tasks with _ | ⟨task, others⟩
      · rcases hstop : s.queue.stop with _ | _
        · exact hwake (by rw [htasks, hstop]; rfl)
        · exact hgo (by rw [htasks, hstop]; rfl)
      · rw [htasks, hcallers] at hnone
        cases hnone

theorem Quiet.running_worker (hq : s.Quiet) (task : ℕ) : .running task ∉ s.queue.workers := by
  intro hmem
  obtain ⟨i, hi⟩ := List.getElem?_of_mem hmem
  have hnone : s.finish i .returns = none := hq (.finish i .returns) rfl rfl
  rw [finish, hi] at hnone
  cases hnone

theorem Quiet.locking_caller (hq : s.Quiet) : .locking ∉ s.callers := by
  intro hmem
  obtain ⟨c, hc⟩ := List.getElem?_of_mem hmem
  have hnone : s.enqueue c = none := hq (.enqueue c) rfl rfl
  rw [enqueue, if_neg (not_not.mpr hc)] at hnone
  split at hnone
  · cases hnone
  · split at hnone
    · cases hnone
    · cases hnone

theorem Quiet.notifying_caller (hq : s.Quiet) : .notifying ∉ s.callers := by
  intro hmem
  obtain ⟨c, hc⟩ := List.getElem?_of_mem hmem
  obtain ⟨woken, workers, hworkers⟩ := notifyOne_exists .waiting .locking s.queue.workers
  have hnone : s.notify c woken = none := hq (.notify c woken) rfl rfl
  rw [notify, if_neg (not_not.mpr hc), WorkQueue.notifyOne, hworkers] at hnone
  cases hnone

/-- Where nobody can move the destructor has not been called, or has returned. -/
theorem Inv.quiet_dtor (h : Inv s) (hq : s.Quiet) : s.dtor = .idle ∨ s.dtor = .returned := by
  have hconsumers := h.consumers
  have hnone : s.destructor = none := hq .destructor rfl rfl
  rw [ThreadPool.destructor] at hnone
  rcases hd : s.dtor with _ | _ | _ | k | _ <;> rw [hd] at hnone hconsumers
  · exact Or.inl rfl
  · cases hnone
  · cases hnone
  · -- the thread that is joined cannot be kept from leaving
    dsimp only at hnone
    rcases hk : s.queue.workers[k]? with _ | w <;> rw [hk] at hnone
    · cases hnone
    · have hw := List.mem_of_getElem? hk
      cases w with
      | locking => exact absurd hw hq.locking_worker
      | waiting => exact absurd hw (hconsumers.awake trivial)
      | running task => exact absurd hw (hq.running_worker task)
      | exited => cases hnone
  · exact Or.inr rfl

/-- Where nobody can move nobody waits for room. -/
theorem Inv.quiet_callers (h : Inv s) (hq : s.Quiet) (htasks : s.queue.tasks = []) :
    ∀ p ∈ s.callers, p = .returned ∨ ∃ what, p = .threw what := by
  intro p hp
  cases p with
  | locking => exact absurd hp hq.locking_caller
  | waiting =>
    -- nobody is about to take the room there is, and after the end nobody waits
    rcases h.quiet_dtor hq with hd | hd
    · have hstop : s.queue.stop = false := by
        rw [← Bool.not_eq_true, h.stopped, hd]
        exact fun hne => hne rfl
      have hroom := h.room hp hstop
      rw [htasks, List.count_eq_zero_of_not_mem hq.locking_caller] at hroom
      exact absurd hroom (Nat.not_lt_zero _)
    · exact absurd hp (h.released (by rw [hd]; trivial))
  | notifying => exact absurd hp hq.notifying_caller
  | returned => exact Or.inl rfl
  | threw what => exact Or.inr ⟨what, rfl⟩

/-- **Where nobody can move everything has been executed.** -/
theorem Inv.quiet_queue (h : Inv s) (hq : s.Quiet) :
    s.queue.tasks = [] ∧ ∀ t ∈ s.queue.accepted, s.queue.ExecutedOnce t := by
  have hcov := h.consumers.covered
  rw [List.count_eq_zero_of_not_mem hq.notifying_caller] at hcov
  exact hcov.idle h.consumers.inv (List.ne_nil_of_length_pos h.nonempty) hq.locking_worker
    hq.running_worker

/-! ### How long the threads can go on

Without new calls and without spurious wake-ups every step uses something up: the phase of
a thread, or a task, which is worth more than the two threads it keeps busy. -/

/-- What a worker can still do on its own. -/
def workerWeight : Worker → ℕ
  | .locking => 1
  | .running _ => 2
  | .waiting | .exited => 0

/-- What a call of `enqueue` can still do on its own; it may bring a task, which counts three. -/
def callerWeight : Caller → ℕ
  | .locking => 6
  | .waiting => 5
  | .notifying => 2
  | .returned | .threw _ => 0

/-- What the destructor can still do, the `workers` and `callers` that it wakes included. -/
def dtorWeight (workers callers : ℕ) : Dtor → ℕ
  | .idle | .returned => 0
  | .notifyTasks => 2 * workers + callers + 3
  | .notifyEnqueue => workers + callers + 2
  | .joining k => workers - k + 1

/-- A bound for the steps that the threads can take on their own. -/
def measure (s : ThreadPool) : ℕ :=
  (s.queue.workers.map workerWeight).sum + 3 * s.queue.tasks.length +
    (s.callers.map callerWeight).sum + dtorWeight s.queue.workers.length s.callers.length s.dtor

/-- Steps of the workers and of the callers leave the destructor's part alone. -/
theorem measure_lt_of_dtor_eq (hd : s'.dtor = s.dtor)
    (hworkers : s'.queue.workers.length = s.queue.workers.length)
    (hcallers : s'.callers.length = s.callers.length)
    (hlt : (s'.queue.workers.map workerWeight).sum + 3 * s'.queue.tasks.length +
        (s'.callers.map callerWeight).sum <
      (s.queue.workers.map workerWeight).sum + 3 * s.queue.tasks.length +
        (s.callers.map callerWeight).sum) : s'.measure < s.measure := by
  rw [measure, measure, hd, hworkers, hcallers]
  exact Nat.add_lt_add_right hlt _

theorem measure_worker {i : ℕ} {woken : Option ℕ} (hs : s.worker i woken = some s') :
    s'.measure < s.measure := by
  obtain ⟨hi, ⟨-, -, rfl⟩ | ⟨-, -, rfl⟩ | ⟨task, others, callers, htasks, hcallers, rfl⟩⟩ :=
    worker_cases hs
  · have hsum : _ + 1 = _ + 0 := sum_move hi .waiting workerWeight
    refine measure_lt_of_dtor_eq rfl List.length_set rfl ?_
    dsimp only [WorkQueue.sleep]
    omega
  · have hsum : _ + 1 = _ + 0 := sum_move hi .exited workerWeight
    refine measure_lt_of_dtor_eq rfl List.length_set rfl ?_
    dsimp only [WorkQueue.leave]
    omega
  · -- the task pays for its execution and for the caller that is woken
    have hsum : _ + 1 = _ + 2 := sum_move hi (.running task) workerWeight
    have hwake : (callers.map callerWeight).sum ≤ _ := sum_notifyOne_le hcallers le_rfl
    refine measure_lt_of_dtor_eq rfl List.length_set (length_notifyOne hcallers) ?_
    dsimp only [WorkQueue.take]
    rw [htasks, List.length_cons]
    omega

theorem measure_finish {i : ℕ} {outcome : Outcome} (hs : s.finish i outcome = some s') :
    s'.measure < s.measure := by
  obtain ⟨task, hi, rfl⟩ := finish_cases hs
  have hsum : _ + 2 = _ + 1 := sum_move hi .locking workerWeight
  refine measure_lt_of_dtor_eq rfl List.length_set rfl ?_
  dsimp only [WorkQueue.finish]
  omega

theorem measure_enqueue {c : ℕ} (hs : s.enqueue c = some s') : s'.measure < s.measure := by
  obtain ⟨hc, ⟨-, -, rfl⟩ | ⟨-, what, rfl⟩ | ⟨-, -, rfl⟩⟩ := enqueue_cases hs
  · have hsum : _ + 6 = _ + 5 := sum_move hc .waiting callerWeight
    refine measure_lt_of_dtor_eq rfl rfl List.length_set ?_
    dsimp only
    omega
  · have hsum : _ + 6 = _ + 0 := sum_move hc (.threw what) callerWeight
    refine measure_lt_of_dtor_eq rfl rfl List.length_set ?_
    dsimp only
    omega
  · have hsum : _ + 6 = _ + 2 := sum_move hc .notifying callerWeight
    refine measure_lt_of_dtor_eq rfl rfl List.length_set ?_
    dsimp only [WorkQueue.push]
    rw [List.length_append, List.length_singleton]
    omega

theorem measure_notify {c : ℕ} {woken : Option ℕ} (hs : s.notify c woken = some s') :
    s'.measure < s.measure := by
  obtain ⟨hc, queue, hqueue, rfl⟩ := notify_cases hs
  obtain ⟨workers, hworkers, rfl⟩ := Option.map_eq_some_iff.mp hqueue
  have hsum : _ + 2 = _ + 0 := sum_move hc .returned callerWeight
  have hwake : (workers.map workerWeight).sum ≤ _ := sum_notifyOne_le hworkers le_rfl
  refine measure_lt_of_dtor_eq rfl (length_notifyOne hworkers) List.length_set ?_
  dsimp only
  omega

theorem measure_destructor (hs : s.destructor = some s') : s'.measure < s.measure := by
  obtain ⟨hd, rfl⟩ | ⟨hd, rfl⟩ | ⟨k, hd, ⟨hk, rfl⟩ | ⟨hk, rfl⟩⟩ := destructor_cases hs <;>
  rw [measure, measure, hd]
  · have hwake : ((WaitSet.notifyAll .waiting .locking s.queue.workers).map workerWeight).sum ≤ _ :=
      sum_notifyAll_le le_rfl
    dsimp only [WorkQueue.notifyAll, dtorWeight]
    rw [length_notifyAll]
    omega
  · have hwake : ((WaitSet.notifyAll .waiting .locking s.callers).map callerWeight).sum ≤ _ :=
      sum_notifyAll_le le_rfl
    dsimp only [dtorWeight]
    omega
  · dsimp only [dtorWeight]
    omega
  · have hlt : k < s.queue.workers.length := (List.getElem?_eq_some_iff.mp hk).1
    dsimp only [dtorWeight]
    omega

/-- **Every step of the threads on their own uses something up.** -/
theorem measure_step {a : Act} (hs : s.step a = some s') (hstarts : a.starts = false)
    (hspurious : a.spurious = false) : s'.measure < s.measure := by
  cases a with
  | worker i woken => exact measure_worker hs
  | finish i outcome => exact measure_finish hs
  | call => cases hstarts
  | enqueue c => exact measure_enqueue hs
  | notify c woken => exact measure_notify hs
  | destroy => cases hstarts
  | destructor => exact measure_destructor hs
  | wakeWorker i => cases hspurious
  | wakeCaller c => cases hspurious

/-- **The threads do not go on forever**: a run from `s` without new calls and without
spurious wake-ups ends. -/
theorem run_length_le {l : List (ThreadPool × Act)} (h : lts.Run s l s')
    (hl : ∀ p ∈ l, p.2.starts = false ∧ p.2.spurious = false) :
    l.length + s'.measure ≤ s.measure := by
  induction h with
  | nil => exact (Nat.zero_add _).le
  | @snoc l s' s'' a _ hs ih =>
    obtain ⟨hstarts, hspurious⟩ := hl (s', a) (List.mem_append_right _ (List.mem_singleton.mpr rfl))
    have hle := ih fun p hp => hl p (List.mem_append_left _ hp)
    have hlt := measure_step hs hstarts hspurious
    rw [List.length_append, List.length_singleton]
    omega

/-! ### The results -/

/-- **What the pool guarantees in a state.** -/
structure Serves (s : ThreadPool) : Prop where
  /-- Tasks are dequeued in the order in which they were enqueued. -/
  fifo : s.queue.accepted = s.queue.dequeued ++ s.queue.tasks
  /-- The accepted tasks are those of the calls that have put theirs in. -/
  accepted : ∀ c, c ∈ s.queue.accepted ↔
    s.callers[c]? = some .notifying ∨ s.callers[c]? = some .returned
  /-- Each of them is at one place: executed, being executed, or in the queue. -/
  accounted : (s.queue.executed.map Prod.fst ++ s.queue.running ++ s.queue.tasks).Nodup ∧
    s.queue.accepted.Perm (s.queue.executed.map Prod.fst ++ s.queue.running ++ s.queue.tasks)
  /-- What has been executed has been executed once, and by one worker. -/
  once : ∀ t ∈ s.queue.executed.map Prod.fst, s.queue.ExecutedOnce t
  /-- A call that throws leaves the queue as it is. -/
  throws : ∀ a s' (c : ℕ) what, s.step a = some s' → s.callers[c]? ≠ some (.threw what) →
    s'.callers[c]? = some (.threw what) → s'.queue = s.queue
  /-- No task is accepted after the pool has been stopped. -/
  rejects : s.queue.stop = true → ∀ a s', s.step a = some s' →
    s'.queue.accepted = s.queue.accepted
  /-- When the destructor returns all is done. -/
  drained : s.dtor = .returned → (∀ w ∈ s.queue.workers, w = .exited) ∧ s.queue.tasks = [] ∧
    ∀ t ∈ s.queue.accepted, s.queue.ExecutedOnce t
  /-- The threads stop only when all is done, … -/
  quiet : s.Quiet → ∀ t ∈ s.queue.accepted, s.queue.ExecutedOnce t
  /-- … and they stop, if they are left to themselves. -/
  ends : ∀ l s', lts.Run s l s' → (∀ p ∈ l, p.2.starts = false ∧ p.2.spurious = false) →
    l.length ≤ s.measure

/-- The calls that have put their task in. -/
theorem entered_iff {p : Option Caller} :
    p.map Caller.entered = some true ↔ p = some .notifying ∨ p = some .returned := by
  rcases p with _ | p
  · simp
  · cases p <;> simp [Caller.entered]

/-- **The pool executes every accepted task exactly once, in order**, and all of them
before its destructor returns. -/
theorem reachable_serves (h : lts.Reachable s) : s.Serves := by
  have hinv := reachable_inv h
  have hqueue := hinv.consumers.inv
  exact
    { fifo := hqueue.fifo
      accepted := fun c => (hinv.fed c).trans entered_iff
      accounted := ⟨hqueue.accounted.nodup_iff.mp hqueue.nodup, hqueue.accounted⟩
      once := fun t ht => hqueue.executedOnce ht
      throws := fun a s' c what hs hc hc' => step_threw hs hc hc'
      rejects := by
        intro hstop a s' hs
        rcases (step_queue hs).2 with ⟨c, -, -, hgo, -⟩ | ⟨haccepted, -⟩
        · rw [hstop] at hgo
          cases hgo
        · exact haccepted
      drained := by
        intro hd
        have hconsumers := hinv.consumers
        rw [hd] at hconsumers
        exact hconsumers.allJoined (fun _ => trivial) (List.ne_nil_of_length_pos hinv.nonempty)
      quiet := fun hq => (hinv.quiet_queue hq).2
      ends := fun l s' hrun hl => (Nat.le_add_right _ _).trans (run_length_le hrun hl) }

/-- A pool of one thread that executes one task and is destroyed. -/
theorem reachable_serves_one :
    ∃ s : ThreadPool, s.dtor = .returned ∧ s.queue.executed = [(0, 0)] ∧ s.Serves := by
  have hinit : lts.Reachable
      { maxQueueSize := 1, queue := .create 1, callers := [], dtor := .idle } :=
    .init ⟨0, 1, rfl⟩
  have hrun := hinit.foldlM (f := step) (fun _ _ _ hs => hs)
    (l := [.worker 0 none, .call, .enqueue 0, .notify 0 (some 0), .worker 0 none,
      .finish 0 .returns, .destroy, .destructor, .destructor, .worker 0 none, .destructor,
      .destructor]) rfl
  exact ⟨_, rfl, rfl, reachable_serves hrun⟩

/-- **Where nobody can move the queue is empty**, and nobody is blocked: every call of
`enqueue` has returned or thrown, and the destructor, if it has been called, has returned. -/
theorem quiet_idle (h : lts.Reachable s) (hq : s.Quiet) :
    s.queue.tasks = [] ∧ .waiting ∉ s.callers ∧
      (∀ p ∈ s.callers, p = .returned ∨ ∃ what, p = .threw what) ∧
      (s.dtor = .idle ∨ s.dtor = .returned) := by
  have hinv := reachable_inv h
  have htasks := (hinv.quiet_queue hq).1
  have hcallers := hinv.quiet_callers hq htasks
  refine ⟨htasks, fun hw => ?_, hcallers, hinv.quiet_dtor hq⟩
  rcases hcallers _ hw with hc | ⟨what, hc⟩
  · cases hc
  · cases hc

/-- The only worker of a pool that nobody has used sleeps. -/
theorem quiet_idle_unused : ∃ s : ThreadPool, s.queue.workers = [.waiting] ∧
    s.queue.tasks = [] ∧ .waiting ∉ s.callers ∧
      (∀ p ∈ s.callers, p = .returned ∨ ∃ what, p = .threw what) ∧
      (s.dtor = .idle ∨ s.dtor = .returned) := by
  have hinit : lts.Reachable
      { maxQueueSize := 1, queue := .create 1, callers := [], dtor := .idle } :=
    .init ⟨1, 1, rfl⟩
  refine ⟨_, rfl, quiet_idle (hinit.step (a := .worker 0 none) rfl) ?_⟩
  rintro (⟨_ | i, woken⟩ | ⟨_ | i, outcome⟩ | _ | c | ⟨c, woken⟩ | _ | _ | i | c) hstarts hspurious
  · rfl
  · rfl
  · cases outcome <;> rfl
  · cases outcome <;> rfl
  · cases hstarts
  · rfl
  · rfl
  · cases hstarts
  · rfl
  · cases hspurious
  · cases hspurious

/-! ### The size of the queue -/

/-- A call of `enqueue` finds a queue of exactly `max_queue_size` tasks, and goes on. -/
def Overfills (s : ThreadPool) (a : Act) : Prop :=
  ∃ c, a = .enqueue c ∧ s.callers[c]? = some .locking ∧ s.queue.stop = false ∧
    s.queue.tasks.length = s.maxQueueSize

theorem Overfills.step {a : Act} (ha : s.Overfills a) (hs : s.step a = some s') :
    s.maxQueueSize < s'.queue.tasks.length := by
  obtain ⟨c, rfl, hc, hstop, hlen⟩ := ha
  obtain ⟨-, ⟨-, hfull, -⟩ | ⟨htrue, -⟩ | ⟨-, -, rfl⟩⟩ := enqueue_cases hs
  · omega
  · rw [hstop] at htrue
    cases htrue
  · change _ < (s.queue.tasks ++ [c]).length
    rw [List.length_append, List.length_singleton]
    omega

/-- No other step lets the queue outgrow `max_queue_size`. -/
theorem tasks_le_of_step {a : Act} (hs : s.step a = some s') (ha : ¬s.Overfills a)
    (hle : s.queue.tasks.length ≤ s.maxQueueSize) : s'.queue.tasks.length ≤ s.maxQueueSize := by
  rcases (step_queue hs).2 with ⟨c, rfl, hc, hstop, hroom, hqueue⟩ | ⟨-, hlen⟩
  · have hne : s.queue.tasks.length ≠ s.maxQueueSize := fun h => ha ⟨c, rfl, hc, hstop, h⟩
    rw [hqueue]
    change (s.queue.tasks ++ [c]).length ≤ _
    rw [List.length_append, List.length_singleton]
    omega
  · exact hlen.trans hle

/-- **The queue outgrows `max_queue_size` exactly when a call of `enqueue` finds it at this
size** – the test is `tasks.size() <= max_queue_size` – and then by one task. -/
theorem run_within_iff {numThreads : ℤ} {maxQueueSize : ℕ} {s₀ : ThreadPool}
    (h₀ : create numThreads maxQueueSize = .ok s₀) {l : List (ThreadPool × Act)}
    (h : lts.Run s₀ l s) :
    ((∀ t ∈ Lts.visited l s, t.queue.tasks.length ≤ maxQueueSize) ↔
        ∀ p ∈ l, ¬p.1.Overfills p.2) ∧
      ∀ t ∈ Lts.visited l s, t.queue.tasks.length ≤ maxQueueSize + 1 := by
  have hsize : ∀ t ∈ Lts.visited l s, t.Inv ∧ t.maxQueueSize = maxQueueSize := by
    refine h.invariant ⟨inv_create h₀, ?_⟩ fun p _ t hp hs => ⟨hp.1.step hs, ?_⟩
    · obtain ⟨n, -, -, rfl⟩ := create_ok h₀
      rfl
    · exact (step_queue hs).1.trans hp.2
  refine ⟨⟨fun hle p hp ha => ?_, fun hno => ?_⟩, fun t ht => ?_⟩
  · -- the state after such a step belongs to the run
    obtain ⟨t, hs, ht⟩ := h.next hp
    have hlt := ha.step hs
    have hmem : p.1 ∈ Lts.visited l s := Lts.mem_visited hp s
    rw [(hsize p.1 hmem).2] at hlt
    exact absurd (hle t ht) (Nat.not_le.mpr hlt)
  · have hall : ∀ t ∈ Lts.visited l s,
        t.maxQueueSize = maxQueueSize ∧ t.queue.tasks.length ≤ maxQueueSize := by
      refine h.invariant ?_ fun p hp t hle hs => ?_
      · obtain ⟨n, -, -, rfl⟩ := create_ok h₀
        exact ⟨rfl, Nat.zero_le _⟩
      · have hlen := tasks_le_of_step hs (hno p hp) (hle.1.symm ▸ hle.2)
        exact ⟨(step_queue hs).1.trans hle.1, hle.1 ▸ hlen⟩
    exact fun t ht => (hall t ht).2
  · have hbound := (hsize t ht).1.bound
    rwa [(hsize t ht).2] at hbound

/-- One call of `enqueue`, on a pool with room for eight tasks. -/
theorem run_within_iff_eight : ∃ (s₀ s : ThreadPool) (l : List (ThreadPool × Act)),
    lts.Run s₀ l s ∧ s.queue.tasks = [0] ∧ ∀ t ∈ Lts.visited l s, t.queue.tasks.length ≤ 8 := by
  have hcreate : create 4 8 =
    .ok { maxQueueSize := 8, queue := .create 4, callers := [], dtor := .idle } := rfl
  have hcall : lts.Run ⟨8, .create 4, [], .idle⟩ _ (call ⟨8, .create 4, [], .idle⟩) :=
    Lts.Run.nil.snoc (a := Act.call) rfl
  have hrun := hcall.snoc (a := Act.enqueue 0) (show step _ _ = some _ from rfl)
  refine ⟨_, _, _, hrun, rfl, (run_within_iff hcreate hrun).1.mpr ?_⟩
  rintro p hp ⟨c, -, -, -, hfull⟩
  rcases List.mem_cons.mp hp with rfl | hp
  · cases hfull
  · rw [List.mem_singleton.mp hp] at hfull
    cases hfull

/-- Two tasks in the queue of a pool whose `max_queue_size` is one. -/
theorem not_within_one :
    ¬∀ s, lts.Reachable s → s.queue.tasks.length ≤ s.maxQueueSize := by
  intro h
  have hinit : lts.Reachable
      { maxQueueSize := 1, queue := .create 1, callers := [], dtor := .idle } :=
    .init ⟨1, 1, rfl⟩
  have hrun := hinit.foldlM (f := step) (fun _ _ _ hs => hs)
    (l := [.call, .call, .enqueue 0, .enqueue 1]) rfl
  exact absurd (h _ hrun) (by decide)

end ThreadPool

end Candcpp
