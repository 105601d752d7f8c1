import Candcpp.Cpp.SiftDown
import Candcpp.Object

/-!
# A minimum heap in a vector

The class `ArrayMinHeap` of `min_heap_array_impl.cpp`: numbers in a vector that is a binary heap,
with recursive functions that move an element up or down to its place. It is built from any
vector, beginning with the last position that has a child.

The heap stands for its elements in order. `Candcpp.ArrayMinHeap.model` is the sorted list, to
which a number is added at its place and of which the first one is read and removed, and
`Candcpp.ArrayMinHeap.Represents` says that the vector holds the same numbers and is a heap.
**Every sequence of calls is answered as by the sorted list**
(`Candcpp.ArrayMinHeap.calls_eq`), and a call that throws changes nothing.

An index of type `int` is an integer, and the division of C++ rounds towards zero: the parent of
the root is the root, and the parent of the last element of an empty heap is at `-1`. A vector has
at most as many elements as an `int` counts.
-/

namespace Candcpp

open Cpp BinaryHeap

/-- `class ArrayMinHeap`. -/
structure ArrayMinHeap where
  heap : Arr ℤ

namespace ArrayMinHeap

/-! ### The code -/

/-- `myswap(i, j)`. -/
def myswap (heap : Arr ℤ) (i j : ℤ) : Exec (Arr ℤ) := do
  let t ← heap.getInt i
  let x ← heap.getInt j
  let heap ← heap.putInt i x
  heap.putInt j t

/-- `heapifyUp(i)`. -/
def heapifyUp (heap : Arr ℤ) (i : ℤ) : Exec (Arr ℤ) := do
  let +zeta heapifyUp : type_of% heapifyUp := by apply heapifyUp
  let father := (i - 1).tdiv 2
  if father < 0 then
    pure heap
  else
    let x ← heap.getInt i
    let y ← heap.getInt father
    if x < y then
      let heap ← myswap heap i father
      heapifyUp heap father
    else
      pure heap
partial_fixpoint

/-- The child that `heapifyDown` compares with. -/
def lesserChild (heap : Arr ℤ) (left right last : ℤ) : Exec ℤ := do
  if right ≤ last then
    let r ← heap.getInt right
    let l ← heap.getInt left
    pure (if r < l then right else left)
  else
    pure left

/-- `heapifyDown(i)`. -/
def heapifyDown (heap : Arr ℤ) (i : ℤ) : Exec (Arr ℤ) := do
  let +zeta heapifyDown : type_of% heapifyDown := by apply heapifyDown
  let last : ℤ := heap.size - 1
  let left := 2 * i + 1
  let right := 2 * i + 2
  if last < left then
    pure heap
  else
    let tmp ← lesserChild heap left right last
    let x ← heap.getInt tmp
    let y ← heap.getInt i
    if x < y then
      let heap ← myswap heap i tmp
      heapifyDown heap tmp
    else
      pure heap
partial_fixpoint

/-- `ArrayMinHeap()`. -/
def empty : ArrayMinHeap where
  heap := { data := fun _ => 0, size := 0 }

/-- The loop of the second constructor. -/
def buildLoop (heap : Arr ℤ) (i : ℤ) : Exec (Arr ℤ) := do
  let +zeta buildLoop : type_of% buildLoop := by apply buildLoop
  if 0 ≤ i then
    let heap ← heapifyDown heap i
    buildLoop heap (i - 1)
  else
    pure heap
partial_fixpoint

/-- `ArrayMinHeap(data)`. -/
def build (data : Arr ℤ) : Exec ArrayMinHeap := do
  let last : ℤ := data.size - 1
  let heap ← buildLoop data ((last - 1).tdiv 2)
  pure { heap := heap }

/-- `add(value)`. -/
def add (s : ArrayMinHeap) (value : ℤ) : Exec ArrayMinHeap := do
  let heap := s.heap.pushBack value
  let last : ℤ := heap.size - 1
  let heap ← heapifyUp heap last
  pure { heap := heap }

/-- `isEmpty()`. -/
def isEmpty (s : ArrayMinHeap) : Bool := s.heap.size = 0

/-- `size()`. -/
def size (s : ArrayMinHeap) : ℕ := s.heap.size

/-- What a method returns, unless it throws a `std::runtime_error` with a text. -/
abbrev OrThrows (α : Type) := Except String α

/-- `std::runtime_error("heap is empty")`. -/
def heapIsEmpty : String := "heap is empty"

/-- `remove()`. -/
def remove (s : ArrayMinHeap) : Exec (OrThrows ArrayMinHeap) := do
  if s.isEmpty then
    pure (.error heapIsEmpty)
  else
    let last : ℤ := s.heap.size - 1
    let x ← s.heap.getInt last
    let heap ← s.heap.putInt 0 x
    let heap ← heap.popBack
    let heap ← heapifyDown heap 0
    pure (.ok { heap := heap })

/-- `peek()`. -/
def peek (s : ArrayMinHeap) : Exec (OrThrows ℤ) := do
  if s.isEmpty then
    pure (.error heapIsEmpty)
  else
    let x ← s.heap.getInt 0
    pure (.ok x)

/-- `print()`: what is printed after `out`, and the heap afterwards. -/
def print (s : ArrayMinHeap) (out : List ℤ) : Exec (OrThrows (List ℤ × ArrayMinHeap)) := do
  let +zeta print : type_of% print := by apply print
  if s.isEmpty then
    pure (.ok (out, s))
  else
    match ← s.peek with
    | .error e => pure (.error e)
    | .ok top => match ← s.remove with
      | .error e => pure (.error e)
      | .ok s => print s (out ++ [top])
partial_fixpoint

/-! ### The calls -/

/-- A call of a method. -/
inductive Act where
  | add (value : ℤ) : Act
  | remove : Act
  | peek : Act
  | isEmpty : Act
  | size : Act
  | print : Act
  deriving DecidableEq, Repr

/-- The answer of a call. -/
inductive Answer where
  | nothing : Answer
  | number (x : ℤ) : Answer
  | flag (b : Bool) : Answer
  | printed (l : List ℤ) : Answer
  | thrown (what : String) : Answer
  deriving DecidableEq, Repr

/-- The answer to the caller and the object, which is unchanged where the method throws. -/
def caught {α : Type} (s : ArrayMinHeap) (e : Exec (OrThrows α)) (f : α → Answer × ArrayMinHeap) :
    Exec (Answer × ArrayMinHeap) := do
  match ← e with
  | .error what => pure (.thrown what, s)
  | .ok a => pure (f a)

/-- The calls of a heap. -/
def object : Object ArrayMinHeap Act Answer where
  allowed := fun _ _ => True
  exec
    | s, .add value => do
      let s ← s.add value
      pure (.nothing, s)
    | s, .remove => caught s s.remove fun s => (.nothing, s)
    | s, .peek => caught s s.peek fun x => (.number x, s)
    | s, .isEmpty => pure (.flag s.isEmpty, s)
    | s, .size => pure (.number s.size, s)
    | s, .print => caught s (s.print []) fun r => (.printed r.1, r.2)

/-- **The sorted list**: what the calls are to do. -/
def model : Model (List ℤ) Act Answer where
  answer
    | _, .add _ => .nothing
    | [], .remove | [], .peek => .thrown heapIsEmpty
    | _ :: _, .remove => .nothing
    | x :: _, .peek => .number x
    | xs, .isEmpty => .flag xs.isEmpty
    | xs, .size => .number xs.length
    | xs, .print => .printed xs
  next
    | xs, .add value => xs.orderedInsert (· ≤ ·) value
    | xs, .remove => xs.tail
    | _, .print => []
    | xs, .peek | xs, .isEmpty | xs, .size => xs

/-- **What a heap stands for**: its elements in order. No element is greater than its children. -/
structure Represents (s : ArrayMinHeap) (xs : List ℤ) : Prop where
  left : ∀ i, 2 * i + 1 < s.heap.size → s.heap.data i ≤ s.heap.data (2 * i + 1)
  right : ∀ i, 2 * i + 2 < s.heap.size → s.heap.data i ≤ s.heap.data (2 * i + 2)
  sorted : xs.Pairwise (· ≤ ·)
  perm : s.heap.toList.Perm xs

/-! ### Moving an element -/

variable {heap : Arr ℤ} {i j : ℕ} {s : ArrayMinHeap} {xs : List ℤ}

/-- The parent of a position, with the division of C++. -/
theorem tdiv_parent (i : ℕ) : ((i : ℤ) - 1).tdiv 2 = (parent i : ℕ) := by
  cases i with
  | zero => rfl
  | succ i => rw [Nat.cast_succ, add_sub_cancel_right, parent, Int.natCast_tdiv_eq_ediv]; rfl

/-- **`myswap` exchanges** two elements. -/
theorem myswap_eq (hi : i < heap.size) (hj : j < heap.size) (hne : i ≠ j) :
    myswap heap i j = pure { heap with data := heap.data ∘ Equiv.swap i j } := by
  have hdata : Function.update (Function.update heap.data i (heap.data j)) j (heap.data i) =
      heap.data ∘ Equiv.swap i j := by
    rw [update_hole _ _ hne, Function.update_eq_self]
  rw [myswap, Arr.getInt_eq hi, pure_bind, Arr.getInt_eq hj, pure_bind, Arr.putInt_eq hi, pure_bind,
    Arr.putInt_eq (a := ⟨Function.update heap.data i (heap.data j), heap.size⟩) hj, hdata]

/-- What a movement of elements leaves as it is. -/
structure Moved (heap heap' : Arr ℤ) : Prop where
  size : heap'.size = heap.size
  perm : heap'.toList.Perm heap.toList

theorem Moved.refl (heap : Arr ℤ) : Moved heap heap := ⟨rfl, .refl _⟩

theorem moved_swap (hi : i < heap.size) (hj : j < heap.size) {heap' : Arr ℤ}
    (h : Moved { heap with data := heap.data ∘ Equiv.swap i j } heap') : Moved heap heap' where
  size := h.size
  perm := h.perm.trans (map_swap_perm heap.data hi hj)

/-- **`heapifyUp`** moves an element up to its place. -/
theorem heapifyUp_spec (heap : Arr ℤ) (h : UpOrder heap.data heap.size i) (hi : i < heap.size) :
    ∃ heap', heapifyUp heap i = pure heap' ∧ Moved heap heap' ∧ IsHeap heap'.data heap'.size := by
  induction i using Nat.strong_induction_on generalizing heap with
  | h i ih =>
    have hparent : parent i < heap.size := by
      rw [parent]
      omega
    rw [heapifyUp, tdiv_parent, if_neg (by omega), Arr.getInt_eq hi, pure_bind,
      Arr.getInt_eq hparent, pure_bind]
    by_cases hlt : heap.data i < heap.data (parent i)
    · have hpos : 0 < i := by
        rcases Nat.eq_zero_or_pos i with rfl | hpos
        · exact absurd hlt (lt_irrefl _)
        · exact hpos
      have hpi := parent_lt hpos
      rw [if_pos hlt, myswap_eq hi hparent hpi.ne', pure_bind]
      obtain ⟨heap', hrun, hmoved, hheap⟩ := ih _ hpi
        { heap with data := heap.data ∘ Equiv.swap i (parent i) }
        (h.swap hpos hi hlt) hparent
      exact ⟨heap', hrun, moved_swap hi hparent hmoved, hheap⟩
    · rw [if_neg hlt]
      exact ⟨heap, rfl, .refl heap, h.isHeap fun _ => not_lt.mp hlt⟩

/-- **The lesser child** of a position that has one. -/
theorem lesserChild_eq (hi : 2 * i + 1 < heap.size) : ∃ c : ℕ,
    lesserChild heap (2 * i + 1) (2 * i + 2) (heap.size - 1) = pure (c : ℤ) ∧
      (c = 2 * i + 1 ∨ c = 2 * i + 2) ∧ c < heap.size ∧
      ∀ c', (c' = 2 * i + 1 ∨ c' = 2 * i + 2) → c' < heap.size → heap.data c ≤ heap.data c' := by
  have hleft := Arr.getInt_eq hi
  push_cast at hleft
  rw [lesserChild]
  by_cases hr : 2 * i + 2 < heap.size
  · have hright := Arr.getInt_eq hr
    push_cast at hright
    rw [if_pos (by omega), hright, pure_bind, hleft, pure_bind]
    by_cases hlt : heap.data (2 * i + 2) < heap.data (2 * i + 1)
    · refine ⟨2 * i + 2, by rw [if_pos hlt]; push_cast; rfl, Or.inr rfl, hr, ?_⟩
      rintro c' (rfl | rfl) -
      · exact hlt.le
      · exact le_rfl
    · refine ⟨2 * i + 1, by rw [if_neg hlt]; push_cast; rfl, Or.inl rfl, hi, ?_⟩
      rintro c' (rfl | rfl) -
      · exact le_rfl
      · exact not_lt.mp hlt
  · refine ⟨2 * i + 1, by rw [if_neg (by omega)]; push_cast; rfl, Or.inl rfl, hi, ?_⟩
    rintro c' (rfl | rfl) hc'
    · exact le_rfl
    · exact absurd hc' hr

/-- **`heapifyDown`** moves an element down to its place. -/
theorem siftsDown_heapifyDown : SiftsDown id heapifyDown where
  leaf heap i hi := by rw [heapifyDown, if_pos (by omega)]
  node heap i hi := by
    obtain ⟨c, hcode, hc, hcn, hmin⟩ := lesserChild_eq hi
    refine ⟨c, hc, hcn, hmin, ?_⟩
    rw [heapifyDown, if_neg (by omega), hcode, pure_bind, Arr.getInt_eq hcn, pure_bind,
      Arr.getInt_eq (show i < heap.size by omega), pure_bind, myswap_eq (by omega) hcn (by omega),
      pure_bind]
    rfl

/-! ### The constructors -/

theorem represents_iff : Represents s xs ↔
    IsHeap s.heap.data s.heap.size ∧ xs.Pairwise (· ≤ ·) ∧ s.heap.toList.Perm xs := by
  rw [isHeap_iff]
  constructor
  · intro h
    exact ⟨fun i => ⟨h.left i, h.right i⟩, h.sorted, h.perm⟩
  · rintro ⟨h, hsorted, hperm⟩
    exact ⟨fun i => (h i).1, fun i => (h i).2, hsorted, hperm⟩

theorem represents_empty : Represents empty [] :=
  represents_iff.mpr ⟨isHeapFrom_half (Nat.zero_le _), .nil, .refl _⟩

/-- The last position with a child, and where it lies: `-1` for an empty vector, and the root
for a single element. -/
theorem exists_last (n : ℕ) : ∃ m : ℕ, ((n : ℤ) - 1 - 1).tdiv 2 = m - 1 ∧ n ≤ 2 * m + 1 := by
  cases n with
  | zero => exact ⟨0, rfl, by omega⟩
  | succ n =>
    refine ⟨parent n + 1, ?_, by rw [parent]; omega⟩
    rw [Nat.cast_succ, add_sub_cancel_right, tdiv_parent, Nat.cast_succ, add_sub_cancel_right]

/-- **The second constructor** makes a heap of any vector. -/
theorem build_spec (data : Arr ℤ) : ∃ s, build data = pure s ∧
    Represents s (data.toList.insertionSort (· ≤ ·)) := by
  obtain ⟨m, hm, hle⟩ := exists_last data.size
  have hloop : ∀ heap i, buildLoop heap i =
      if 0 ≤ i then (heapifyDown heap i >>= fun heap => buildLoop heap (i - 1)) else pure heap := by
    intro heap i
    rw [buildLoop]
  obtain ⟨heap, hrun, hperm, hheap⟩ := siftsDown_heapifyDown.build hloop data hle
  refine ⟨{ heap := heap }, ?_, represents_iff.mpr ⟨hheap, List.pairwise_insertionSort _ _, ?_⟩⟩
  · rw [build, hm, hrun, pure_bind]
  · exact hperm.trans (List.perm_insertionSort _ _).symm

/-! ### The methods -/

theorem Represents.length (h : Represents s xs) : xs.length = s.heap.size := by
  rw [← h.perm.length_eq, Arr.length_toList]

theorem Represents.isEmpty_eq (h : Represents s xs) : s.isEmpty = xs.isEmpty := by
  rw [ArrayMinHeap.isEmpty, ← h.length]
  cases xs <;> simp

/-- **The first element of the vector** is the least of all. -/
theorem Represents.root_eq {x : ℤ} (h : Represents s (x :: xs)) : s.heap.data 0 = x := by
  have hpos : 0 < s.heap.size := by
    rw [← h.length]
    exact Nat.succ_pos _
  refine le_antisymm ?_ ?_
  · obtain ⟨i, hi, hx⟩ := List.mem_map.mp (h.perm.mem_iff.mpr List.mem_cons_self)
    rw [← hx]
    exact (represents_iff.mp h).1.root_le (List.mem_range.mp hi)
  · rcases List.mem_cons.mp (h.perm.mem_iff.mp (Arr.mem_toList hpos)) with heq | hmem
    · exact heq.ge
    · exact (List.pairwise_cons.mp h.sorted).1 _ hmem

/-- **`add`** puts a number at its place. -/
theorem Represents.add (h : Represents s xs) (value : ℤ) : ∃ s', s.add value = pure s' ∧
    Represents s' (xs.orderedInsert (· ≤ ·) value) := by
  have hord : UpOrder (s.heap.pushBack value).data (s.heap.pushBack value).size s.heap.size :=
    (represents_iff.mp h).1.push fun i hi => Function.update_of_ne hi.ne _ _
  obtain ⟨heap, hrun, hmoved, hheap⟩ := heapifyUp_spec _ hord (Nat.lt_succ_self _)
  have hlast : ((s.heap.pushBack value).size : ℤ) - 1 = (s.heap.size : ℕ) := by
    rw [Arr.pushBack, Nat.cast_succ, add_sub_cancel_right]
  refine ⟨{ heap := heap }, ?_, represents_iff.mpr ⟨hheap, h.sorted.orderedInsert _ _, ?_⟩⟩
  · rw [ArrayMinHeap.add, hlast, hrun, pure_bind]
  · have hpush : (s.heap.pushBack value).toList = s.heap.toList ++ [value] :=
      map_push s.heap.data value s.heap.size
    refine (hpush ▸ hmoved.perm).trans ((List.perm_append_singleton value _).trans ?_)
    exact (h.perm.cons value).trans (List.perm_orderedInsert _ value xs).symm

theorem Represents.isEmpty_cons {x : ℤ} (h : Represents s (x :: xs)) : s.isEmpty = false :=
  h.isEmpty_eq

/-- **`remove`** deletes the least number. -/
theorem Represents.remove {x : ℤ} (h : Represents s (x :: xs)) :
    ∃ s', s.remove = pure (.ok s') ∧ Represents s' xs := by
  obtain ⟨n, hn⟩ : ∃ n, s.heap.size = n + 1 := ⟨xs.length, h.length.symm⟩
  obtain ⟨heap, hrun, hperm, hheap⟩ := siftsDown_heapifyDown.pop (represents_iff.mp h).1 hn
  rw [h.root_eq] at hperm
  refine ⟨{ heap := heap }, ?_, represents_iff.mpr ⟨hheap, h.sorted.of_cons, ?_⟩⟩
  · have hlast : (s.heap.size : ℤ) - 1 = (n : ℕ) := by
      rw [hn, Nat.cast_succ, add_sub_cancel_right]
    have hput := Arr.putInt_eq (a := s.heap) (i := 0) (by omega) (s.heap.data n)
    have hpop := Arr.popBack_eq
      (a := ⟨Function.update s.heap.data 0 (s.heap.data n), s.heap.size⟩) hn
    have hget := Arr.getInt_eq (a := s.heap) (i := n) (by omega)
    rw [Nat.cast_zero] at hput
    rw [ArrayMinHeap.remove, h.isEmpty_cons, if_neg Bool.false_ne_true]
    simp only [hlast, hget, hput, hpop, hrun, pure_bind]
  · exact List.Perm.cons_inv (hperm.trans h.perm)

theorem Represents.peek {x : ℤ} (h : Represents s (x :: xs)) : s.peek = pure (.ok x) := by
  have hget := Arr.getInt_eq (a := s.heap) (i := 0) (h.length ▸ Nat.succ_pos _)
  rw [Nat.cast_zero, h.root_eq] at hget
  rw [ArrayMinHeap.peek, h.isEmpty_cons, if_neg Bool.false_ne_true, hget, pure_bind]

/-- **`print`** prints the numbers in order, and leaves an empty heap. -/
theorem Represents.print (h : Represents s xs) (out : List ℤ) :
    ∃ s', s.print out = pure (.ok (out ++ xs, s')) ∧ Represents s' [] := by
  induction xs generalizing s out with
  | nil =>
    refine ⟨s, ?_, h⟩
    rw [ArrayMinHeap.print, h.isEmpty_eq, List.isEmpty_nil, if_pos rfl, List.append_nil]
  | cons x xs ih =>
    obtain ⟨t, ht, hrep⟩ := h.remove
    obtain ⟨s', hs', hnil⟩ := ih hrep (out ++ [x])
    refine ⟨s', ?_, hnil⟩
    rw [ArrayMinHeap.print, h.isEmpty_cons, if_neg Bool.false_ne_true, h.peek, pure_bind]
    simp only [ht, pure_bind, hs', List.append_assoc, List.singleton_append]

/-! ### Every sequence of calls -/

theorem Represents.remove_nil (h : Represents s []) : s.remove = pure (.error heapIsEmpty) := by
  rw [ArrayMinHeap.remove, h.isEmpty_eq, List.isEmpty_nil, if_pos rfl]

theorem Represents.peek_nil (h : Represents s []) : s.peek = pure (.error heapIsEmpty) := by
  rw [ArrayMinHeap.peek, h.isEmpty_eq, List.isEmpty_nil, if_pos rfl]

theorem caught_ok {α : Type} {e : Exec (OrThrows α)} {a : α} (h : e = pure (.ok a))
    (f : α → Answer × ArrayMinHeap) : caught s e f = pure (f a) := by
  rw [caught, h, pure_bind]

theorem caught_error {α : Type} {e : Exec (OrThrows α)} {what : String}
    (h : e = pure (.error what)) (f : α → Answer × ArrayMinHeap) :
    caught s e f = pure (.thrown what, s) := by
  rw [caught, h, pure_bind]

/-- **Each call is answered** as by the sorted list. -/
theorem simulates : object.Simulates model Represents fun _ _ => True := by
  intro s xs a hR _ _
  cases a with
  | add value =>
    obtain ⟨s', hs, hR'⟩ := hR.add value
    exact ⟨s', by simp only [object, hs, pure_bind]; rfl, hR'⟩
  | remove =>
    cases xs with
    | nil => exact ⟨s, caught_error hR.remove_nil _, hR⟩
    | cons x xs =>
      obtain ⟨s', hs, hR'⟩ := hR.remove
      exact ⟨s', caught_ok hs _, hR'⟩
  | peek =>
    cases xs with
    | nil => exact ⟨s, caught_error hR.peek_nil _, hR⟩
    | cons x xs => exact ⟨s, caught_ok hR.peek _, hR⟩
  | isEmpty =>
    refine ⟨s, ?_, hR⟩
    simp only [object, hR.isEmpty_eq]
    cases xs <;> rfl
  | size =>
    refine ⟨s, ?_, hR⟩
    simp only [object, ArrayMinHeap.size, ← hR.length]
    cases xs <;> rfl
  | print =>
    obtain ⟨s', hs, hR'⟩ := hR.print []
    refine ⟨s', ?_, hR'⟩
    simp only [object, caught_ok hs]
    cases xs <;> rfl

end ArrayMinHeap

end Candcpp
