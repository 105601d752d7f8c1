import Candcpp.Lts
import Candcpp.Cpp.Map
import Candcpp.Concurrent.Calls

/-!
# Producers and consumers over one slot array

The program `cpp/thread/5_producer_consumer.cpp`: threads that store numbers in a bounded
array, threads that take them out again, and a global map with the number of occurrences of
each number in the array.

`produce` and `consume` are one section under the mutex each, which begins with a wait and
ends with a notification, so that a call that finds its condition true is one atomic step;
the second mutex, that of the map, is taken inside of the section only. A wait gives up the
mutex and joins the wait set in the same step (`Candcpp.Calls`). The scheduler chooses who
moves and whom a notification wakes, and may wake a thread that nobody has notified.

| code | definition |
|---|---|
| `Slot(int capacity)` | `Candcpp.Slot.create` |
| `slots[size++] = task` | `Candcpp.Slot.store` |
| `task = slots[--size]` | `Candcpp.Slot.take` |
| `Slot::produce` | `Candcpp.ProducerConsumer.produce` |
| `Slot::consume` | `Candcpp.ProducerConsumer.consume` |
| `Producer`, `Consumer`, and their start in `main` | `Candcpp.ProducerConsumer.create` |

The state keeps a log of the numbers stored and taken, which no step reads.
-/

namespace Candcpp

open Cpp

/-! ### The array -/

/-- The fields of `Slot` that hold the tasks. -/
structure Slot where
  capacity : ℤ
  slots : Arr ℤ
  size : ℤ

namespace Slot

/-- `Slot(int capacity)`. The elements of `new int[capacity]` are not initialised. -/
def create (capacity : ℤ) (uninitialised : ℕ → ℤ) : Slot where
  capacity := capacity
  slots :=
    { data := uninitialised
      size := capacity.toNat }
  size := 0

/-- `slots[size++] = task`. -/
def store (s : Slot) (task : ℤ) : Exec Slot := do
  let slots ← s.slots.putInt s.size task
  pure { s with slots := slots, size := s.size + 1 }

/-- `task = slots[--size]`. -/
def take (s : Slot) : Exec (ℤ × Slot) := do
  let s := { s with size := s.size - 1 }
  let task ← s.slots.getInt s.size
  pure (task, s)

/-- The elements `slots[0..size)`. -/
def contents (s : Slot) : List ℤ := (List.range s.size.toNat).map s.slots.data

/-- The array has as many elements as its capacity says, and at most so many are in use. -/
structure Ok (s : Slot) : Prop where
  nonneg : 0 ≤ s.size
  le : s.size ≤ s.capacity
  allocated : s.slots.size = s.capacity.toNat

variable {s : Slot}

theorem ok_create {capacity : ℤ} (h : 0 ≤ capacity) (uninitialised : ℕ → ℤ) :
    (create capacity uninitialised).Ok where
  nonneg := le_rfl
  le := h
  allocated := rfl

/-- **A task is stored behind the others** where there is room. -/
theorem Ok.store (h : s.Ok) (hroom : s.size < s.capacity) (task : ℤ) :
    ∃ s', s.store task = pure s' ∧ s'.Ok ∧ s'.capacity = s.capacity ∧
      s'.size = s.size + 1 ∧ s'.contents = s.contents ++ [task] := by
  obtain ⟨hnonneg, hle, halloc⟩ := h
  have hput : s.slots.putInt s.size task =
      pure { s.slots with data := Function.update s.slots.data s.size.toNat task } := by
    rw [Arr.putInt, if_pos hnonneg, Arr.put_eq (by omega)]
  have hstore : s.store task = pure
      { s with
        slots :=
          { s.slots with data := Function.update s.slots.data s.size.toNat task }
        size := s.size + 1 } := by
    rw [Slot.store, hput, pure_bind]
  refine ⟨_, hstore, ⟨?_, ?_, halloc⟩, rfl, rfl, ?_⟩
  · exact Int.add_nonneg hnonneg Int.one_nonneg
  · exact Int.add_one_le_of_lt hroom
  · -- the elements in use are below the one that is written
    have hsize : (s.size + 1).toNat = s.size.toNat + 1 := by omega
    have hold : (List.range s.size.toNat).map (Function.update s.slots.data s.size.toNat task) =
        s.contents := by
      refine List.map_congr_left fun j hj => Function.update_of_ne ?_ _ _
      exact (List.mem_range.mp hj).ne
    rw [contents, hsize, List.range_succ, List.map_append, hold, List.map_singleton]
    exact congrArg (s.contents ++ [·]) (Function.update_self ..)

/-- **The last task is taken** where there is one. -/
theorem Ok.take (h : s.Ok) (hpos : 0 < s.size) :
    ∃ task s', s.take = pure (task, s') ∧ s'.Ok ∧ s'.capacity = s.capacity ∧
      s'.size = s.size - 1 ∧ s.contents = s'.contents ++ [task] := by
  obtain ⟨hnonneg, hle, halloc⟩ := h
  have hget : s.slots.getInt (s.size - 1) = pure (s.slots.data (s.size - 1).toNat) := by
    rw [Arr.getInt, if_pos (by omega), Arr.get_eq (by omega)]
  have htake : s.take =
      pure (s.slots.data (s.size - 1).toNat, { s with size := s.size - 1 }) := by
    rw [Slot.take, hget, pure_bind]
  refine ⟨_, _, htake, ⟨?_, ?_, halloc⟩, rfl, rfl, ?_⟩
  · exact Int.sub_nonneg_of_le hpos
  · exact (Int.sub_le_self _ Int.one_nonneg).trans hle
  · have hsize : s.size.toNat = (s.size - 1).toNat + 1 := by omega
    rw [contents, hsize, List.range_succ, List.map_append, List.map_singleton]
    rfl

end Slot

/-! ### The threads -/

/-- What has been done to the array. -/
inductive SlotEvent where
  | produced (task : ℤ) : SlotEvent
  | consumed (task : ℤ) : SlotEvent
  deriving DecidableEq, Repr

structure ProducerConsumer where
  slot : Slot
  gCounter : Map ℤ ℤ
  /-- Those that wait on `slot_full`. -/
  producers : Calls
  /-- Those that wait on `slot_empty`. -/
  consumers : Calls
  log : List SlotEvent

namespace ProducerConsumer

/-- The threads started, with one number of calls for each. -/
def create (capacity : ℤ) (producers consumers : List ℤ) (uninitialised : ℕ → ℤ) :
    ProducerConsumer where
  slot := .create capacity uninitialised
  gCounter := Map.empty
  producers := .create producers
  consumers := .create consumers
  log := []

/-- The section of `produce(task)` under the lock, in the producer `i`. A consumer that waits
is notified, `woken` if there is any. -/
def produce (s : ProducerConsumer) (i : ℕ) (task : ℤ) (woken : Option ℕ) :
    Option ProducerConsumer :=
  if s.producers.phases[i]? ≠ some .locking then
    none
  else if !decide (s.slot.size < s.slot.capacity) then
    -- `slot_full.wait(lock, …)`
    some { s with producers := s.producers.sleep i }
  else
    (s.slot.store task).returned.bind fun slot =>
      (s.consumers.notifyOne woken).map fun consumers =>
        { slot := slot
          gCounter := s.gCounter.countUp task
          producers := s.producers.next i
          consumers := consumers
          log := s.log ++ [.produced task] }

/-- The section of `consume()` under the lock, in the consumer `i`. -/
def consume (s : ProducerConsumer) (i : ℕ) (woken : Option ℕ) : Option ProducerConsumer :=
  if s.consumers.phases[i]? ≠ some .locking then
    none
  else if !decide (s.slot.size > 0) then
    -- `slot_empty.wait(lock, …)`
    some { s with consumers := s.consumers.sleep i }
  else
    s.slot.take.returned.bind fun (task, slot) =>
      (s.producers.notifyOne woken).map fun producers =>
        { slot := slot
          gCounter := s.gCounter.countDown task
          producers := producers
          consumers := s.consumers.next i
          log := s.log ++ [.consumed task] }

/-- A producer wakes up although nobody has notified it. -/
def wakeProducer (s : ProducerConsumer) (i : ℕ) : Option ProducerConsumer :=
  (s.producers.wake i).map fun producers => { s with producers := producers }

/-- A consumer wakes up although nobody has notified it. -/
def wakeConsumer (s : ProducerConsumer) (i : ℕ) : Option ProducerConsumer :=
  (s.consumers.wake i).map fun consumers => { s with consumers := consumers }

/-! ### The transition system -/

/-- Who moves, and whom a notification wakes. -/
inductive Act where
  | produce (i : ℕ) (task : ℤ) (woken : Option ℕ) : Act
  | consume (i : ℕ) (woken : Option ℕ) : Act
  | wakeProducer (i : ℕ) : Act
  | wakeConsumer (i : ℕ) : Act
  deriving DecidableEq, Repr

/-- A wake-up that is due to no notification. -/
def Act.spurious : Act → Bool
  | .wakeProducer _ | .wakeConsumer _ => true
  | _ => false

def step (s : ProducerConsumer) : Act → Option ProducerConsumer
  | .produce i task woken => s.produce i task woken
  | .consume i woken => s.consume i woken
  | .wakeProducer i => s.wakeProducer i
  | .wakeConsumer i => s.wakeConsumer i

/-- The runs of a slot array of this capacity, with these threads. -/
def lts (capacity : ℤ) (producers consumers : List ℤ) : Lts ProducerConsumer Act where
  init := fun s => ∃ uninitialised, s = create capacity producers consumers uninitialised
  step := fun s a s' => s.step a = some s'

/-- **No thread can take a step**, apart from spurious wake-ups. -/
def Quiet (s : ProducerConsumer) : Prop := ∀ a : Act, a.spurious = false → s.step a = none

end ProducerConsumer

end Candcpp
