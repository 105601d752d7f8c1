import Candcpp.Thread.ProducerConsumer

/-!
# What the producers and the consumers guarantee

The runs of `Candcpp.ProducerConsumer`: any number of threads, any numbers of calls, every
order of their sections under the mutex, spurious wake-ups included.

The invariant `Candcpp.ProducerConsumer.Inv` has three parts. The array and the map agree
with the log; the log is that of a stack (`Candcpp.ProducerConsumer.Stacked`); and no
notification is lost, although each operation sends only one: while a producer waits, the
tasks and the producers that are about to look again make up the capacity, and while a
consumer waits there are no more tasks than consumers that are about to look again.

| result | |
|---|---|
| `Candcpp.ProducerConsumer.reachable_stacked` | bounds, no loss, no duplication, last in first out, and the map counts |
| `Candcpp.ProducerConsumer.quiet_finished` | where nobody can move all calls have been made, and the array and the map are empty |
-/

namespace Candcpp

namespace ProducerConsumer

open Cpp

/-! ### The log -/

/-- The tasks stored, in the order in which they were stored. -/
def stored (log : List SlotEvent) : List ℤ :=
  log.filterMap fun
    | .produced task => some task
    | .consumed _ => none

/-- The tasks taken, in the order in which they were taken. -/
def taken (log : List SlotEvent) : List ℤ :=
  log.filterMap fun
    | .produced _ => none
    | .consumed task => some task

/-- The tasks still present, in the order in which they were stored, if whoever takes a task
takes the one stored most recently. -/
def present (log : List SlotEvent) : List ℤ :=
  log.foldl
    (fun tasks event =>
      match event with
      | .produced task => tasks ++ [task]
      | .consumed _ => tasks.dropLast)
    []

/-- **The log of a stack**: the array has the tasks still present, they are those stored
without those taken, and each task taken was the most recent one present. -/
structure Stacked (contents : List ℤ) (log : List SlotEvent) : Prop where
  present : contents = present log
  account : (contents ++ taken log).Perm (stored log)
  lifo : ∀ before task, before ++ [.consumed task] <+: log →
    (ProducerConsumer.present before).getLast? = some task

theorem present_produced (log : List SlotEvent) (task : ℤ) :
    present (log ++ [.produced task]) = present log ++ [task] := by
  rw [present, List.foldl_append]
  rfl

theorem present_consumed (log : List SlotEvent) (task : ℤ) :
    present (log ++ [.consumed task]) = (present log).dropLast := by
  rw [present, List.foldl_append]
  rfl

variable {contents : List ℤ} {log : List SlotEvent} {task : ℤ}

theorem stacked_nil : Stacked [] [] where
  present := rfl
  account := .refl _
  lifo := by
    rintro before task ⟨after, h⟩
    simp at h

theorem Stacked.produced (h : Stacked contents log) (task : ℤ) :
    Stacked (contents ++ [task]) (log ++ [.produced task]) where
  present := by rw [present_produced, h.present]
  account := by
    have hstored : stored (log ++ [.produced task]) = stored log ++ [task] :=
      List.filterMap_append
    have htaken : taken (log ++ [.produced task]) = taken log ++ [] := List.filterMap_append
    rw [hstored, htaken, List.append_nil, List.append_assoc]
    refine (List.perm_append_comm.append_left contents).trans ?_
    rw [← List.append_assoc]
    exact h.account.append_right [task]
  lifo := by
    intro before task' hpre
    rcases List.prefix_concat_iff.mp hpre with heq | hpre
    · -- the last event is not that of a consumer
      cases (List.append_inj' heq rfl).2
    · exact h.lifo before task' hpre

theorem Stacked.consumed (h : Stacked (contents ++ [task]) log) :
    Stacked contents (log ++ [.consumed task]) where
  present := by rw [present_consumed, ← h.present, List.dropLast_concat]
  account := by
    have hstored : stored (log ++ [.consumed task]) = stored log ++ [] := List.filterMap_append
    have htaken : taken (log ++ [.consumed task]) = taken log ++ [task] :=
      List.filterMap_append
    rw [hstored, htaken, List.append_nil]
    refine List.Perm.trans ?_ h.account
    rw [List.append_assoc]
    exact List.perm_append_comm.append_left contents
  lifo := by
    intro before task' hpre
    rcases List.prefix_concat_iff.mp hpre with heq | hpre
    · -- the last task is what this consumer has taken
      obtain ⟨rfl, hlast⟩ := List.append_inj' heq rfl
      cases hlast
      rw [← h.present, List.getLast?_concat]
    · exact h.lifo before task' hpre

/-! ### The invariant -/

/-- **The invariant of the program.** -/
structure Inv (capacity : ℤ) (s : ProducerConsumer) : Prop where
  slot : s.slot.Ok
  capacity : s.slot.capacity = capacity
  counts : s.gCounter.Counts s.slot.contents
  stacked : Stacked s.slot.contents s.log
  producers : s.producers.Ok
  consumers : s.consumers.Ok
  /-- While a producer waits, there is no room left by those who are about to look again. -/
  room : s.producers.Waiting → s.slot.capacity ≤ s.slot.size + s.producers.locking
  /-- While a consumer waits, there is no task left by those who are about to look again. -/
  tasks : s.consumers.Waiting → s.slot.size ≤ s.consumers.locking

variable {capacity : ℤ} {s s' : ProducerConsumer}

theorem inv_create (h : 0 ≤ capacity) (producers consumers : List ℤ) (uninitialised : ℕ → ℤ) :
    Inv capacity (create capacity producers consumers uninitialised) where
  slot := Slot.ok_create h uninitialised
  capacity := rfl
  counts := Map.counts_empty
  stacked := stacked_nil
  producers := Calls.ok_create producers
  consumers := Calls.ok_create consumers
  room := fun hw => absurd hw (Calls.not_waiting_create producers)
  tasks := fun hw => absurd hw (Calls.not_waiting_create consumers)

/-! ### What a step does -/

/-- A producer waits, or its task is in the array and the map, and a consumer notified. -/
theorem Inv.produce_cases (h : Inv capacity s) {i : ℕ} {task : ℤ} {woken : Option ℕ}
    (hs : s.produce i task woken = some s') :
    s.producers.phases[i]? = some .locking ∧
      ((s.slot.capacity ≤ s.slot.size ∧ s' = { s with producers := s.producers.sleep i }) ∨
        ∃ slot consumers, slot.Ok ∧ slot.capacity = s.slot.capacity ∧
          slot.size = s.slot.size + 1 ∧ slot.contents = s.slot.contents ++ [task] ∧
          s.consumers.notifyOne woken = some consumers ∧
          s' =
            { slot := slot
              gCounter := s.gCounter.countUp task
              producers := s.producers.next i
              consumers := consumers
              log := s.log ++ [.produced task] }) := by
  rw [produce] at hs
  split at hs
  · cases hs
  · rename_i hi
    refine ⟨not_not.mp hi, ?_⟩
    rcases lt_or_ge s.slot.size s.slot.capacity with hroom | hfull
    · obtain ⟨slot, hstore, hok, hcap, hsize, hcontents⟩ := h.slot.store hroom task
      rw [decide_eq_true hroom, hstore] at hs
      obtain ⟨consumers, hconsumers, rfl⟩ := Option.map_eq_some_iff.mp hs
      exact Or.inr ⟨slot, consumers, hok, hcap, hsize, hcontents, hconsumers, rfl⟩
    · rw [decide_eq_false hfull.not_gt] at hs
      exact Or.inl ⟨hfull, (Option.some.inj hs).symm⟩

/-- A consumer waits, or has taken the last task out of the array and the map, and a producer
is notified. -/
theorem Inv.consume_cases (h : Inv capacity s) {i : ℕ} {woken : Option ℕ}
    (hs : s.consume i woken = some s') :
    s.consumers.phases[i]? = some .locking ∧
      ((s.slot.size = 0 ∧ s' = { s with consumers := s.consumers.sleep i }) ∨
        ∃ task slot producers, slot.Ok ∧ slot.capacity = s.slot.capacity ∧
          slot.size = s.slot.size - 1 ∧ s.slot.contents = slot.contents ++ [task] ∧
          s.producers.notifyOne woken = some producers ∧
          s' =
            { slot := slot
              gCounter := s.gCounter.countDown task
              producers := producers
              consumers := s.consumers.next i
              log := s.log ++ [.consumed task] }) := by
  rw [consume] at hs
  split at hs
  · cases hs
  · rename_i hi
    refine ⟨not_not.mp hi, ?_⟩
    rcases lt_or_ge 0 s.slot.size with hpos | hzero
    · obtain ⟨task, slot, htake, hok, hcap, hsize, hcontents⟩ := h.slot.take hpos
      rw [decide_eq_true hpos, htake] at hs
      obtain ⟨producers, hproducers, rfl⟩ := Option.map_eq_some_iff.mp hs
      exact Or.inr ⟨task, slot, producers, hok, hcap, hsize, hcontents, hproducers, rfl⟩
    · rw [decide_eq_false hzero.not_gt] at hs
      exact Or.inl ⟨le_antisymm hzero h.slot.nonneg, (Option.some.inj hs).symm⟩

/-! ### The steps keep it -/

theorem Inv.produce (h : Inv capacity s) {i : ℕ} {task : ℤ} {woken : Option ℕ}
    (hs : s.produce i task woken = some s') : Inv capacity s' := by
  obtain ⟨hi, ⟨hfull, rfl⟩ | ⟨slot, consumers, hok, hcap, hsize, hcontents, hnotify, rfl⟩⟩ :=
    h.produce_cases hs
  · -- it waits, at an array that is full by itself
    exact
      { h with
        producers := h.producers.sleep hi
        room := fun _ => hfull.trans (Int.le_add_of_nonneg_right (Int.natCast_nonneg _)) }
  · refine
      { slot := hok
        capacity := hcap.trans h.capacity
        counts := ?_
        stacked := ?_
        producers := h.producers.next i
        consumers := h.consumers.notifyOne hnotify
        room := fun hw => ?_
        tasks := fun hw => ?_ }
    · rw [hcontents]
      exact (h.counts.countUp task).perm (List.perm_append_singleton ..).symm
    · rw [hcontents]
      exact h.stacked.produced task
    · -- it has taken a place, and is no longer about to take one
      have hroom := h.room (Calls.waiting_next hw)
      have hlocking := Calls.locking_next hi
      change slot.capacity ≤ slot.size + (s.producers.next i).locking
      omega
    · -- who still waits has seen another consumer woken for the task
      obtain ⟨hwas, hlocking⟩ := Calls.locking_notifyOne hnotify hw
      have htasks := h.tasks hwas
      change slot.size ≤ consumers.locking
      omega

theorem Inv.consume (h : Inv capacity s) {i : ℕ} {woken : Option ℕ}
    (hs : s.consume i woken = some s') : Inv capacity s' := by
  obtain ⟨hi, ⟨hzero, rfl⟩ |
    ⟨task, slot, producers, hok, hcap, hsize, hcontents, hnotify, rfl⟩⟩ := h.consume_cases hs
  · -- it waits, at an array that is empty by itself
    exact
      { h with
        consumers := h.consumers.sleep hi
        tasks := fun _ => hzero.trans_le (Int.natCast_nonneg _) }
  · have hcounts := h.counts
    have hstacked := h.stacked
    rw [hcontents] at hcounts hstacked
    refine
      { slot := hok
        capacity := hcap.trans h.capacity
        counts := (hcounts.perm (List.perm_append_singleton ..)).countDown
        stacked := hstacked.consumed
        producers := h.producers.notifyOne hnotify
        consumers := h.consumers.next i
        room := fun hw => ?_
        tasks := fun hw => ?_ }
    · -- who still waits has seen another producer woken for the room
      obtain ⟨hwas, hlocking⟩ := Calls.locking_notifyOne hnotify hw
      have hroom := h.room hwas
      change slot.capacity ≤ slot.size + producers.locking
      omega
    · -- it has taken a task, and is no longer about to take one
      have htasks := h.tasks (Calls.waiting_next hw)
      have hlocking := Calls.locking_next hi
      change slot.size ≤ (s.consumers.next i).locking
      omega

theorem Inv.wakeProducer (h : Inv capacity s) {i : ℕ} (hs : s.wakeProducer i = some s') :
    Inv capacity s' := by
  obtain ⟨producers, hwake, rfl⟩ := Option.map_eq_some_iff.mp hs
  obtain ⟨hwas, hlocking⟩ := Calls.locking_wake hwake
  refine { h with producers := h.producers.wake hwake, room := fun _ => ?_ }
  have hroom := h.room hwas
  change s.slot.capacity ≤ s.slot.size + producers.locking
  omega

theorem Inv.wakeConsumer (h : Inv capacity s) {i : ℕ} (hs : s.wakeConsumer i = some s') :
    Inv capacity s' := by
  obtain ⟨consumers, hwake, rfl⟩ := Option.map_eq_some_iff.mp hs
  obtain ⟨hwas, hlocking⟩ := Calls.locking_wake hwake
  refine { h with consumers := h.consumers.wake hwake, tasks := fun _ => ?_ }
  have htasks := h.tasks hwas
  change s.slot.size ≤ consumers.locking
  omega

/-- **Every step keeps the invariant.** -/
theorem Inv.step (h : Inv capacity s) {a : Act} (hs : s.step a = some s') : Inv capacity s' := by
  cases a with
  | produce i task woken => exact h.produce hs
  | consume i woken => exact h.consume hs
  | wakeProducer i => exact h.wakeProducer hs
  | wakeConsumer i => exact h.wakeConsumer hs

variable {producers consumers : List ℤ}

theorem reachable_inv (hcap : 0 ≤ capacity) (h : (lts capacity producers consumers).Reachable s) :
    Inv capacity s := by
  refine h.invariant ?_ fun s a s' _ hs hstep => hs.step hstep
  rintro s ⟨uninitialised, rfl⟩
  exact inv_create hcap producers consumers uninitialised

/-! ### The array is a stack -/

/-- **The array is a bounded stack, and the map counts what it holds**: whatever the threads
do, the number of tasks is within its bounds, the tasks in the array and the tasks taken are
together those stored, each task was taken as the one stored most recently, and the map has
the number of occurrences of each task in the array. -/
theorem reachable_stacked (hcap : 1 ≤ capacity)
    (h : (lts capacity producers consumers).Reachable s) :
    (0 ≤ s.slot.size ∧ s.slot.size ≤ capacity) ∧
      ((s.slot.contents : Multiset ℤ) = stored s.log - taken s.log ∧
        (taken s.log : Multiset ℤ) ≤ stored s.log) ∧
      (∀ before task, before ++ [.consumed task] <+: s.log →
        (present before).getLast? = some task) ∧
      ∀ task, s.gCounter task =
        if task ∈ s.slot.contents then some (s.slot.contents.count task : ℤ) else none := by
  have hI := reachable_inv (by omega) h
  have haccount : (s.slot.contents : Multiset ℤ) + taken s.log = stored s.log :=
    Multiset.coe_eq_coe.mpr hI.stacked.account
  refine ⟨⟨hI.slot.nonneg, hI.capacity ▸ hI.slot.le⟩, ⟨?_, ?_⟩, hI.stacked.lifo, hI.counts⟩
  · rw [← haccount, add_tsub_cancel_right]
  · rw [← haccount]
    exact le_add_self

/-- Two tasks through an array of one element: the second producer waits for the first
task to be taken. -/
theorem reachable_stacked_one : ∃ s : ProducerConsumer,
    s.log = [.produced 7, .consumed 7, .produced 8] ∧
    (0 ≤ s.slot.size ∧ s.slot.size ≤ 1) ∧
      ((s.slot.contents : Multiset ℤ) = stored s.log - taken s.log ∧
        (taken s.log : Multiset ℤ) ≤ stored s.log) ∧
      (∀ before task, before ++ [.consumed task] <+: s.log →
        (present before).getLast? = some task) ∧
      ∀ task, s.gCounter task =
        if task ∈ s.slot.contents then some (s.slot.contents.count task : ℤ) else none := by
  have hinit : (lts 1 [1, 1] [2]).Reachable (create 1 [1, 1] [2] fun _ => 0) := .init ⟨_, rfl⟩
  have hrun := hinit.foldlM (f := step) (fun _ _ _ hs => hs)
    (l := [.produce 0 7 none, .produce 1 8 none, .consume 0 (some 1), .produce 1 8 none]) rfl
  refine ⟨_, ?_, reachable_stacked le_rfl hrun⟩
  rfl

/-! ### Where nobody can move -/

/-- **No call goes through unnoticed**: the calls that are left, and the tasks in the array,
are in balance. -/
theorem reachable_balance (hcap : 0 ≤ capacity)
    (h : (lts capacity producers consumers).Reachable s) :
    s.producers.total + s.slot.size + (consumers.map Int.toNat).sum =
      s.consumers.total + (producers.map Int.toNat).sum := by
  induction h with
  | init h =>
    obtain ⟨uninitialised, rfl⟩ := h
    change ((producers.map Int.toNat).sum : ℤ) + 0 + _ = ((consumers.map Int.toNat).sum : ℤ) + _
    ring
  | @step s s' a h hs ih =>
    have hI := reachable_inv hcap h
    cases a with
    | produce i task woken =>
      obtain ⟨hi, ⟨-, rfl⟩ | ⟨slot, group, -, -, hsize, -, hnotify, rfl⟩⟩ := hI.produce_cases hs
      · exact ih
      -- one task less is to be produced, and one more is stored
      · have htotal := hI.producers.total_next hi
        have hother := Calls.total_notifyOne hnotify
        change ((s.producers.next i).total : ℤ) + slot.size + _ = group.total + _
        omega
    | consume i woken =>
      obtain ⟨hi, ⟨-, rfl⟩ | ⟨task, slot, group, -, -, hsize, -, hnotify, rfl⟩⟩ :=
        hI.consume_cases hs
      · exact ih
      -- one task less is stored, and one less is to be consumed
      · have htotal := hI.consumers.total_next hi
        have hother := Calls.total_notifyOne hnotify
        change (group.total : ℤ) + slot.size + _ = (s.consumers.next i).total + _
        omega
    | wakeProducer i =>
      obtain ⟨group, hwake, rfl⟩ := Option.map_eq_some_iff.mp hs
      rw [← Calls.total_wake hwake] at ih
      exact ih
    | wakeConsumer i =>
      obtain ⟨group, hwake, rfl⟩ := Option.map_eq_some_iff.mp hs
      rw [← Calls.total_wake hwake] at ih
      exact ih

/-- Where nobody can move no producer is about to take the lock: it could wait, or store. -/
theorem Inv.not_locking_producer (h : Inv capacity s) (hq : Quiet s) :
    .locking ∉ s.producers.phases := by
  intro hmem
  obtain ⟨i, hi⟩ := List.getElem?_of_mem hmem
  rcases lt_or_ge s.slot.size s.slot.capacity with hroom | hfull
  · obtain ⟨slot, hstore, -⟩ := h.slot.store hroom 0
    obtain ⟨woken, group, hnotify⟩ := s.consumers.notifyOne_exists
    have hnone : s.produce i 0 woken = none := hq (.produce i 0 woken) rfl
    rw [ProducerConsumer.produce, if_neg (not_not.mpr hi), decide_eq_true hroom, hstore] at hnone
    simp [hnotify] at hnone
  · have hnone : s.produce i 0 none = none := hq (.produce i 0 none) rfl
    rw [ProducerConsumer.produce, if_neg (not_not.mpr hi), decide_eq_false hfull.not_gt] at hnone
    cases hnone

/-- Where nobody can move no consumer is about to take the lock: it could wait, or take. -/
theorem Inv.not_locking_consumer (h : Inv capacity s) (hq : Quiet s) :
    .locking ∉ s.consumers.phases := by
  intro hmem
  obtain ⟨i, hi⟩ := List.getElem?_of_mem hmem
  rcases lt_or_ge 0 s.slot.size with hpos | hzero
  · obtain ⟨task, slot, htake, -⟩ := h.slot.take hpos
    obtain ⟨woken, group, hnotify⟩ := s.producers.notifyOne_exists
    have hnone : s.consume i woken = none := hq (.consume i woken) rfl
    rw [ProducerConsumer.consume, if_neg (not_not.mpr hi), decide_eq_true hpos, htake] at hnone
    simp [hnotify] at hnone
  · have hnone : s.consume i none = none := hq (.consume i none) rfl
    rw [ProducerConsumer.consume, if_neg (not_not.mpr hi), decide_eq_false hzero.not_gt] at hnone
    cases hnone

/-- **Nobody is left waiting**: with as many calls of `consume` as of `produce`, the threads
can stop only where all of them are finished, and there the array and the map are empty. -/
theorem quiet_finished (hcap : 1 ≤ capacity)
    (hbalance : (producers.map Int.toNat).sum = (consumers.map Int.toNat).sum)
    (h : (lts capacity producers consumers).Reachable s) (hq : Quiet s) :
    (∀ p ∈ s.producers.phases, p = .finished) ∧ (∀ p ∈ s.consumers.phases, p = .finished) ∧
      s.slot.size = 0 ∧ s.gCounter = Map.empty := by
  have hI := reachable_inv (by omega) h
  have hleft := reachable_balance (by omega) h
  rw [hbalance] at hleft
  have hproducer := hI.not_locking_producer hq
  have hconsumer := hI.not_locking_consumer hq
  have hnone : s.consumers.locking = 0 := List.count_eq_zero.mpr hconsumer
  -- a waiting producer has left a full array behind, so a consumer has calls to make; it does
  -- not wait
  have hfinished : ∀ p ∈ s.producers.phases, p = .finished := by
    refine (Calls.finished_or_waiting hproducer).resolve_right fun hw => ?_
    have hroom := hI.room hw
    have hzero : s.producers.locking = 0 := List.count_eq_zero.mpr hproducer
    have hcapacity := hI.capacity
    rcases Calls.finished_or_waiting hconsumer with hall | hwait
    · have htotal := hI.consumers.total_eq_zero hall
      omega
    · have htasks := hI.tasks hwait
      omega
  have hdone := hI.producers.total_eq_zero hfinished
  have hnonneg := hI.slot.nonneg
  -- a waiting consumer has a call to make, for which there is a task
  have hfinished' : ∀ p ∈ s.consumers.phases, p = .finished := by
    refine (Calls.finished_or_waiting hconsumer).resolve_right fun hw => ?_
    have htasks := hI.tasks hw
    have hpos := hI.consumers.total_pos hw
    omega
  have hdone' := hI.consumers.total_eq_zero hfinished'
  have hsize : s.slot.size = 0 := by omega
  refine ⟨hfinished, hfinished', hsize, funext fun task => ?_⟩
  have hcontents : s.slot.contents = [] := by
    rw [Slot.contents, hsize]
    rfl
  rw [hI.counts task, hcontents]
  exact if_neg List.not_mem_nil

/-- Two producers and a consumer that have made their calls. -/
theorem quiet_finished_one : ∃ s : ProducerConsumer,
    s.log = [.produced 7, .consumed 7, .produced 8, .consumed 8] ∧
    (∀ p ∈ s.producers.phases, p = .finished) ∧ (∀ p ∈ s.consumers.phases, p = .finished) ∧
      s.slot.size = 0 ∧ s.gCounter = Map.empty := by
  have hinit : (lts 1 [1, 1] [2]).Reachable (create 1 [1, 1] [2] fun _ => 0) := .init ⟨_, rfl⟩
  have hrun := hinit.foldlM (f := step) (fun _ _ _ hs => hs)
    (l := [.produce 0 7 none, .produce 1 8 none, .consume 0 (some 1), .produce 1 8 none,
      .consume 0 none]) rfl
  refine ⟨_, ?_, quiet_finished le_rfl ?_ hrun ?_⟩
  · rfl
  · rfl
  rintro (⟨_ | _ | i, task, woken⟩ | ⟨_ | i, woken⟩ | i | i) hspurious
  · rfl
  · rfl
  · rfl
  · rfl
  · rfl
  · cases hspurious
  · cases hspurious

end ProducerConsumer

end Candcpp
