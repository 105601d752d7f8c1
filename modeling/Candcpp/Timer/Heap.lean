import Candcpp.Cpp.Exec
import Candcpp.Order.BinaryHeap
import Candcpp.Timer.Pending

/-!
# The time heap

The class `time_heap` of `min_heap_timer.h`: timers in an array that is a binary heap in
the order of their `expire`. The array doubles when it is full. A timer is cancelled by
taking its callback away; it stays on the heap until its time has come.

The functions are those of the source, over `Candcpp.Cpp.Exec`. A size or an index of
type `int` is a natural number: the machine is taken to have memory for every array
that is asked for, and an `int` to hold its length. The first loop of a constructor, which
sets every element to null, is `Candcpp.Cpp.Arr.fill`.

| function | what it does to the heap | theorem |
|---|---|---|
| `percolateDown` | moves an element down to its place | `Candcpp.TimeHeap.percolateDown_spec` |
| `timeHeapOf` | orders an array | `Candcpp.TimeHeap.timeHeapOf_spec` |
| `addTimer` | inserts a timer | `Candcpp.TimeHeap.addTimer_spec` |
| `popTimer` | removes and deletes the earliest timer | `Candcpp.TimeHeap.popTimer_spec` |
| `tick` | fires and deletes the due timers | `Candcpp.TimeHeap.tick_spec` |
-/

namespace Candcpp

open Cpp BinaryHeap

/-! ### The classes -/

/-- `class heap_timer`. The callback acts on the environment, given the timer's
`user_data`; it is null when the timer has been cancelled. -/
structure HeapTimer (σ : Type) where
  expire : ℤ
  cbFunc : Option (ℕ → σ → σ)
  userData : ℕ

/-- `class time_heap`, together with the heap of the timers. -/
structure TimeHeap (σ : Type) where
  mem : Mem (HeapTimer σ)
  array : Arr Ptr
  capacity : ℕ
  curSize : ℕ

namespace TimeHeap

variable {σ : Type}

/-! ### The functions -/

/-- `array[i]->expire`. -/
def expireOf (s : TimeHeap σ) (i : ℕ) : Exec ℤ := do
  let p ← s.array.get i
  let t ← s.mem.read p
  pure t.expire

/-- The `for` loop of `percolate_down`. It also returns the position where the hole
ends. -/
def downLoop (s : TimeHeap σ) (temp : Ptr) (hole : ℕ) : Exec (TimeHeap σ × ℕ) :=
  if hole * 2 + 1 ≤ s.curSize - 1 then do
    let +zeta downLoop : type_of% downLoop := by apply downLoop
    let child := hole * 2 + 1
    let child ← (if child < s.curSize - 1 then do
        let r ← s.expireOf (child + 1)
        let l ← s.expireOf child
        pure (if r < l then child + 1 else child)
      else pure child)
    let c ← s.expireOf child
    let t ← s.mem.read temp
    if c < t.expire then
      let p ← s.array.get child
      let array ← s.array.put hole p
      downLoop { s with array := array } temp child
    else pure (s, hole)
  else pure (s, hole)
partial_fixpoint

/-- `percolate_down(hole)`. -/
def percolateDown (s : TimeHeap σ) (hole : ℕ) : Exec (TimeHeap σ) := do
  let temp ← s.array.get hole
  let (s, hole) ← downLoop s temp hole
  let array ← s.array.put hole temp
  pure { s with array := array }

/-- `time_heap(cap)`. -/
def timeHeap (m : Mem (HeapTimer σ)) (cap : ℕ) : TimeHeap σ where
  mem := m
  array := .fill cap none
  capacity := cap
  curSize := 0

/-- The last loop of the second constructor, from `i` down to the root. -/
def buildLoop (s : TimeHeap σ) : ℕ → Exec (TimeHeap σ)
  | 0 => percolateDown s 0
  | i + 1 => do
    let s ← percolateDown s (i + 1)
    buildLoop s i

/-- `time_heap(init_array, size, capacity)`, where `size` is the number of elements of
`initArray`: no heap if the exception is thrown. -/
def timeHeapOf (m : Mem (HeapTimer σ)) (initArray : Arr Ptr) (capacity : ℕ) :
    Exec (Option (TimeHeap σ)) :=
  if capacity < initArray.size then pure none
  else do
    let s := { mem := m, array := .fill capacity none, capacity := capacity,
               curSize := initArray.size }
    if initArray.size ≠ 0 then
      let array ← Arr.copy initArray s.array initArray.size
      let s ← buildLoop { s with array := array } ((s.curSize - 1) / 2)
      pure (some s)
    else pure (some s)

/-- `resize()`. -/
def resize (s : TimeHeap σ) : Exec (TimeHeap σ) := do
  let temp := .fill (2 * s.capacity) none
  let array ← Arr.copy s.array temp s.curSize
  pure { s with array := array, capacity := s.capacity * 2 }

/-- The `for` loop of `add_timer`. It also returns the position where the hole ends. -/
def upLoop (s : TimeHeap σ) (timer : Ptr) (hole : ℕ) : Exec (TimeHeap σ × ℕ) :=
  if hole > 0 then do
    let +zeta upLoop : type_of% upLoop := by apply upLoop
    let parent := (hole - 1) / 2
    let p ← s.expireOf parent
    let t ← s.mem.read timer
    if p ≤ t.expire then pure (s, hole)
    else
      let q ← s.array.get parent
      let array ← s.array.put hole q
      upLoop { s with array := array } timer parent
  else pure (s, hole)
partial_fixpoint

/-- `add_timer(timer)`. -/
def addTimer (s : TimeHeap σ) (timer : Ptr) : Exec (TimeHeap σ) :=
  if timer = none then pure s
  else do
    let s ← (if s.curSize ≥ s.capacity then resize s else pure s)
    let hole := s.curSize
    let (s, hole) ← upLoop { s with curSize := s.curSize + 1 } timer hole
    let array ← s.array.put hole timer
    pure { s with array := array }

/-- `del_timer(timer)`. -/
def delTimer (s : TimeHeap σ) (timer : Ptr) : Exec (TimeHeap σ) :=
  if timer = none then pure s
  else do
    let m ← s.mem.modify timer fun t => { t with cbFunc := none }
    pure { s with mem := m }

/-- `top()`. -/
def top (s : TimeHeap σ) : Exec Ptr := if s.curSize = 0 then pure none else s.array.get 0

/-- `pop_timer()`. -/
def popTimer (s : TimeHeap σ) : Exec (TimeHeap σ) :=
  if s.curSize = 0 then pure s
  else do
    let p ← s.array.get 0
    if p ≠ none then
      let m ← s.mem.delete p
      let q ← s.array.get (s.curSize - 1)
      let array ← s.array.put 0 q
      percolateDown { s with mem := m, array := array, curSize := s.curSize - 1 } 0
    else pure s

/-- `if (timer->cb_func) timer->cb_func(timer->user_data)`, and whether it was called. -/
def callback (t : HeapTimer σ) (env : σ) : σ × Bool :=
  match t.cbFunc with
  | none => (env, false)
  | some f => (f t.userData env, true)

/-- The `while` loop of `tick`. It also returns the timers that it has popped, in order,
each with whether its callback has been invoked. -/
def tickLoop (cur : ℤ) (s : TimeHeap σ) (env : σ) (tmp : Ptr) :
    Exec (TimeHeap σ × σ × List (Ptr × Bool)) :=
  if s.curSize = 0 then pure (s, env, [])
  else if tmp = none then pure (s, env, [])
  else do
    let +zeta tickLoop : type_of% tickLoop := by apply tickLoop
    let t ← s.mem.read tmp
    if t.expire > cur then pure (s, env, [])
    else
      let p ← s.array.get 0
      let h ← s.mem.read p
      let (env, called) := callback h env
      let s ← popTimer s
      let tmp ← s.array.get 0
      let (s, env, popped) ← tickLoop cur s env tmp
      pure (s, env, (p, called) :: popped)
partial_fixpoint

/-- `tick()`, when the clock reads `cur`. -/
def tick (cur : ℤ) (s : TimeHeap σ) (env : σ) : Exec (TimeHeap σ × σ × List (Ptr × Bool)) := do
  let tmp ← s.array.get 0
  tickLoop cur s env tmp

/-! ### The keys and the elements -/

/-- The `expire` of the timer that a pointer points to. -/
def keyOf (m : Mem (HeapTimer σ)) (p : Ptr) : ℤ := ((p.bind m).map HeapTimer.expire).getD 0

/-- The first `n` elements of an array. -/
def itemsOf (d : ℕ → Ptr) (n : ℕ) : List Ptr := (List.range n).map d

/-- The elements of a heap. -/
def items (s : TimeHeap σ) : List Ptr := itemsOf s.array.data s.curSize

variable {m : Mem (HeapTimer σ)} {s s' : TimeHeap σ} {d : ℕ → Ptr} {p temp : Ptr} {t : HeapTimer σ}
  {a x : Addr} {i n lo hole : ℕ}

theorem keyOf_some (h : m a = some t) : keyOf m (some a) = t.expire := by
  rw [keyOf, Option.bind_some, h]
  rfl

theorem mem_itemsOf : p ∈ itemsOf d n ↔ ∃ i < n, d i = p := by
  simp [itemsOf, List.mem_map]

theorem mem_itemsOf_of_lt (h : i < n) : d i ∈ itemsOf d n := mem_itemsOf.mpr ⟨i, h, rfl⟩

theorem read_eq (h : Alive m p) : ∃ t, m.read p = pure t ∧ keyOf m p = t.expire := by
  obtain ⟨a, t, rfl, ht⟩ := h
  exact ⟨t, Mem.read_some ht, keyOf_some ht⟩

theorem expireOf_eq (hi : i < s.array.size) (h : Alive s.mem (s.array.data i)) :
    s.expireOf i = pure (keyOf s.mem (s.array.data i)) := by
  obtain ⟨t, ht, hk⟩ := read_eq h
  rw [expireOf, Arr.get_eq hi, pure_bind, ht, pure_bind, hk]

/-! ### Moving down -/

/-- The test in the loop picks the least child. -/
theorem pickChild (hsize : s.curSize ≤ s.array.size) (hchild : hole * 2 + 1 ≤ s.curSize - 1)
    (halive : ∀ i < s.curSize, i ≠ hole → Alive s.mem (s.array.data i)) :
    ∃ c, (if hole * 2 + 1 < s.curSize - 1 then do
          let r ← s.expireOf (hole * 2 + 1 + 1)
          let l ← s.expireOf (hole * 2 + 1)
          pure (if r < l then hole * 2 + 1 + 1 else hole * 2 + 1)
        else pure (hole * 2 + 1)) = pure c ∧
      (c = 2 * hole + 1 ∨ c = 2 * hole + 2) ∧ c < s.curSize ∧
      ∀ c', (c' = 2 * hole + 1 ∨ c' = 2 * hole + 2) → c' < s.curSize →
        keyOf s.mem (s.array.data c) ≤ keyOf s.mem (s.array.data c') := by
  by_cases hright : hole * 2 + 1 < s.curSize - 1
  · rw [if_pos hright, expireOf_eq (by omega) (halive _ (by omega) (by omega)), pure_bind,
      expireOf_eq (by omega) (halive _ (by omega) (by omega)), pure_bind]
    by_cases hlt : keyOf s.mem (s.array.data (hole * 2 + 1 + 1)) <
        keyOf s.mem (s.array.data (hole * 2 + 1))
    · refine ⟨hole * 2 + 1 + 1, by rw [if_pos hlt], by omega, by omega, fun c' hc' _ => ?_⟩
      rcases hc' with rfl | rfl
      · rw [show 2 * hole + 1 = hole * 2 + 1 by omega]
        exact hlt.le
      · rw [show 2 * hole + 2 = hole * 2 + 1 + 1 by omega]
    · refine ⟨hole * 2 + 1, by rw [if_neg hlt], by omega, by omega, fun c' hc' _ => ?_⟩
      rcases hc' with rfl | rfl
      · rw [show 2 * hole + 1 = hole * 2 + 1 by omega]
      · rw [show 2 * hole + 2 = hole * 2 + 1 + 1 by omega]
        exact not_lt.mp hlt
  · refine ⟨hole * 2 + 1, if_neg hright, by omega, by omega, fun c' hc' hn => ?_⟩
    rw [show c' = hole * 2 + 1 by omega]

/-- A turn of the loop, at a hole with a child: the least child moves up if it is smaller. -/
theorem downLoop_turn (hsize : s.curSize ≤ s.array.size) (hchild : hole * 2 + 1 ≤ s.curSize - 1)
    (hhole : hole < s.curSize) (htemp : Alive s.mem temp)
    (halive : ∀ i < s.curSize, i ≠ hole → Alive s.mem (s.array.data i)) :
    ∃ c, (c = 2 * hole + 1 ∨ c = 2 * hole + 2) ∧ c < s.curSize ∧
      (∀ c', (c' = 2 * hole + 1 ∨ c' = 2 * hole + 2) → c' < s.curSize →
        keyOf s.mem (s.array.data c) ≤ keyOf s.mem (s.array.data c')) ∧
      downLoop s temp hole =
        if keyOf s.mem (s.array.data c) < keyOf s.mem temp then
          downLoop { s with array :=
            ⟨Function.update s.array.data hole (s.array.data c), s.array.size⟩ } temp c
        else pure (s, hole) := by
  obtain ⟨c, hcode, hc, hcn, hmin⟩ := pickChild hsize hchild halive
  refine ⟨c, hc, hcn, hmin, ?_⟩
  have hcs : c < s.array.size := hcn.trans_le hsize
  obtain ⟨t, ht, htk⟩ := read_eq htemp
  rw [downLoop, if_pos hchild]
  dsimp only
  rw [hcode, pure_bind, expireOf_eq hcs (halive c hcn (by omega)), pure_bind, ht, pure_bind, ← htk,
    Arr.get_eq hcs, pure_bind, Arr.put_eq (hhole.trans_le hsize), pure_bind]

/-- **The loop of `percolate_down`**: with the hole filled by `temp`, the order is broken
at the hole only, and in the end not at all. -/
theorem downLoop_spec (hsize : s.curSize ≤ s.array.size) (hhole : hole < s.curSize)
    (halive : ∀ p ∈ itemsOf (Function.update s.array.data hole temp) s.curSize, Alive s.mem p)
    (hord : DownOrder lo (keyOf s.mem ∘ Function.update s.array.data hole temp) s.curSize hole) :
    ∃ d hole', downLoop s temp hole = pure ({ s with array := ⟨d, s.array.size⟩ }, hole') ∧
      hole' < s.curSize ∧
      IsHeapFrom lo (keyOf s.mem ∘ Function.update d hole' temp) s.curSize ∧
      (itemsOf (Function.update d hole' temp) s.curSize).Perm
        (itemsOf (Function.update s.array.data hole temp) s.curSize) := by
  -- the hole moves towards the end of the array
  obtain ⟨k, hk⟩ : ∃ k, k = s.curSize - hole := ⟨_, rfl⟩
  induction k using Nat.strong_induction_on generalizing s hole with
  | h k ih =>
    obtain ⟨v, hv⟩ : ∃ v, v = Function.update s.array.data hole temp := ⟨_, rfl⟩
    have hself : v hole = temp := by rw [hv, Function.update_self]
    have hother : ∀ i, i ≠ hole → v i = s.array.data i := fun i hi => by
      rw [hv, Function.update_of_ne hi]
    rw [← hv] at halive hord
    have hlive : ∀ i < s.curSize, Alive s.mem (v i) := fun i hi => halive _ (mem_itemsOf_of_lt hi)
    by_cases hchild : hole * 2 + 1 ≤ s.curSize - 1
    · obtain ⟨c, hc, hcn, hmin, hturn⟩ := downLoop_turn hsize hchild hhole
        (hself ▸ hlive hole hhole) fun i hi hne => hother i hne ▸ hlive i hi
      have hpc : parent c = hole := by
        rcases hc with rfl | rfl
        · exact parent_left hole
        · exact parent_right hole
      have hne : c ≠ hole := by omega
      rw [hturn]
      have hminv : ∀ c', 0 < c' → c' < s.curSize → parent c' = hole →
          (keyOf s.mem ∘ v) c ≤ (keyOf s.mem ∘ v) c' := by
        refine min_child fun c' hc' hn => ?_
        rw [Function.comp_apply, Function.comp_apply, hother c hne, hother c' (by omega)]
        exact hmin c' hc' hn
      rcases lt_or_ge (keyOf s.mem (s.array.data c)) (keyOf s.mem temp) with hlt | hge
      · -- the child moves up, and the hole down
        have hswap : Function.update (Function.update s.array.data hole (s.array.data c)) c temp =
            v ∘ Equiv.swap hole c := by rw [hv, update_hole _ _ hne.symm]
        have hperm : (itemsOf (v ∘ Equiv.swap hole c) s.curSize).Perm (itemsOf v s.curSize) :=
          map_swap_perm v hhole hcn
        rw [if_pos hlt]
        obtain ⟨d, hole', hrun, hlt', hheap, hp⟩ := ih (s.curSize - c) (by omega)
          (s := { s with array := ⟨Function.update s.array.data hole (s.array.data c),
            s.array.size⟩ }) hsize hcn
          (by
            rw [hswap]
            exact fun p hp => halive p (hperm.mem_iff.mp hp))
          (by
            rw [hswap]
            refine hord.swap (by omega) hcn hpc hminv ?_
            rw [Function.comp_apply, Function.comp_apply, hself, hother c hne]
            exact hlt) rfl
        refine ⟨d, hole', hrun, hlt', hheap, hp.trans ?_⟩
        rw [hswap, ← hv]
        exact hperm
      · -- the least child is not smaller, so none is
        rw [if_neg (not_lt.mpr hge)]
        refine ⟨s.array.data, hole, rfl, hhole, ?_, .refl _⟩
        rw [← hv]
        refine hord.isHeapFrom fun c' hc' hn hp => le_trans ?_ (hminv c' hc' hn hp)
        rw [Function.comp_apply, Function.comp_apply, hself, hother c hne]
        exact hge
    · -- a hole without children
      rw [downLoop, if_neg hchild]
      refine ⟨s.array.data, hole, rfl, hhole, ?_, .refl _⟩
      rw [← hv]
      refine hord.isHeapFrom fun c hc hn hp => ?_
      rcases eq_left_or_right hc hp with rfl | rfl
      · omega
      · omega

/-- **`percolate_down`** moves the element at `hole` down to its place. -/
theorem percolateDown_spec (hsize : s.curSize ≤ s.array.size) (hhole : hole < s.curSize)
    (halive : ∀ p ∈ s.items, Alive s.mem p)
    (hord : DownOrder lo (keyOf s.mem ∘ s.array.data) s.curSize hole) :
    ∃ d, percolateDown s hole = pure { s with array := ⟨d, s.array.size⟩ } ∧
      IsHeapFrom lo (keyOf s.mem ∘ d) s.curSize ∧ (itemsOf d s.curSize).Perm s.items := by
  have hv : Function.update s.array.data hole (s.array.data hole) = s.array.data :=
    Function.update_eq_self _ _
  have halive' : ∀ p ∈ itemsOf (Function.update s.array.data hole (s.array.data hole)) s.curSize,
      Alive s.mem p := by
    rw [hv]
    exact halive
  have hord' : DownOrder lo (keyOf s.mem ∘ Function.update s.array.data hole (s.array.data hole))
      s.curSize hole := by
    rwa [hv]
  obtain ⟨d, hole', hrun, hlt, hheap, hperm⟩ := downLoop_spec hsize hhole halive' hord'
  rw [hv] at hperm
  refine ⟨Function.update d hole' (s.array.data hole), ?_, hheap, hperm⟩
  rw [percolateDown, Arr.get_eq (hhole.trans_le hsize), pure_bind, hrun, pure_bind]
  dsimp only
  rw [Arr.put, if_pos (show hole' < s.array.size by omega), pure_bind]

/-- An empty heap has nothing to move, but its first element is looked at. -/
theorem percolateDown_zero (hn : s.curSize = 0) (hsize : 0 < s.array.size) :
    percolateDown s 0 = pure s := by
  rw [percolateDown, Arr.get_eq hsize, pure_bind, downLoop, if_neg (by omega), pure_bind]
  dsimp only
  rw [Arr.put_eq hsize, pure_bind, Function.update_eq_self]

/-! ### The representation -/

/-- **The representation**: the array is a binary heap of the timers there are. -/
structure Holds (s : TimeHeap σ) : Prop where
  size : s.array.size = s.capacity
  pos : 0 < s.capacity
  le : s.curSize ≤ s.capacity
  heap : IsHeap (keyOf s.mem ∘ s.array.data) s.curSize
  nodup : s.items.Nodup
  alive : ∀ p ∈ s.items, Alive s.mem p
  own : ∀ a t, s.mem a = some t → some a ∈ s.items

theorem Holds.curSize_le (h : Holds s) : s.curSize ≤ s.array.size := h.size ▸ h.le

/-! ### The constructors -/

/-- **The last loop of the second constructor** orders the array, from the positions that
have no children up to the root. -/
theorem buildLoop_spec (hsize : s.curSize ≤ s.array.size) (hi : i < s.curSize)
    (halive : ∀ p ∈ s.items, Alive s.mem p)
    (hord : IsHeapFrom (i + 1) (keyOf s.mem ∘ s.array.data) s.curSize) :
    ∃ d, buildLoop s i = pure { s with array := ⟨d, s.array.size⟩ } ∧
      IsHeap (keyOf s.mem ∘ d) s.curSize ∧ (itemsOf d s.curSize).Perm s.items := by
  induction i generalizing s with
  | zero => exact percolateDown_spec hsize hi halive hord.downOrder
  | succ i ih =>
    obtain ⟨d, hrun, hheap, hperm⟩ := percolateDown_spec hsize hi halive hord.downOrder
    obtain ⟨d', hrun', hheap', hperm'⟩ := ih (s := { s with array := ⟨d, s.array.size⟩ }) hsize
      (by dsimp only; omega) (fun p hp => halive p (hperm.mem_iff.mp hp)) hheap
    refine ⟨d', ?_, hheap', hperm'.trans hperm⟩
    rw [buildLoop, hrun, pure_bind, hrun']

/-- **The first constructor** makes an empty heap. -/
theorem timeHeap_spec (hm : ∀ a, m a = none) {cap : ℕ} (hcap : 0 < cap) :
    Holds (timeHeap m cap) ∧ (timeHeap m cap).items = [] := by
  refine ⟨⟨rfl, hcap, Nat.zero_le _, isHeapFrom_half (Nat.zero_le _), List.nodup_nil,
    fun p hp => absurd hp List.not_mem_nil, fun a t ht => ?_⟩, rfl⟩
  change m a = some t at ht
  rw [hm a] at ht
  cases ht

/-- What the second constructor may be given: an array of all the timers there are. -/
structure InitArray (m : Mem (HeapTimer σ)) (initArray : Arr Ptr) : Prop where
  nodup : (itemsOf initArray.data initArray.size).Nodup
  alive : ∀ p ∈ itemsOf initArray.data initArray.size, Alive m p
  own : ∀ a t, m a = some t → some a ∈ itemsOf initArray.data initArray.size

/-- **The second constructor** makes a heap of the timers it is given, if they fit. -/
theorem timeHeapOf_spec {initArray : Arr Ptr} (h : InitArray m initArray) {cap : ℕ}
    (hle : initArray.size ≤ cap) :
    ∃ d, timeHeapOf m initArray cap = pure (some
        { mem := m, array := ⟨d, cap⟩, capacity := cap, curSize := initArray.size }) ∧
      IsHeap (keyOf m ∘ d) initArray.size ∧
      (itemsOf d initArray.size).Perm (itemsOf initArray.data initArray.size) := by
  rw [timeHeapOf, if_neg (by omega)]
  by_cases hzero : initArray.size = 0
  · refine ⟨fun _ => none, ?_, isHeapFrom_half (by omega), ?_⟩
    · dsimp only
      rw [if_neg (by simpa using hzero)]
      rfl
    · rw [hzero]
      exact .refl _
  · dsimp only
    rw [if_pos hzero, Arr.copy_eq le_rfl (show initArray.size ≤ cap from hle), pure_bind]
    obtain ⟨d₀, hd₀⟩ : ∃ d₀ : ℕ → Ptr, d₀ = fun i =>
      if i < initArray.size then initArray.data i else (Arr.fill cap none).data i := ⟨_, rfl⟩
    rw [← hd₀]
    have hitems : itemsOf d₀ initArray.size = itemsOf initArray.data initArray.size := by
      refine List.map_congr_left fun i hi => ?_
      rw [hd₀]
      exact if_pos (List.mem_range.mp hi)
    obtain ⟨d, hrun, hheap, hperm⟩ := buildLoop_spec (i := (initArray.size - 1) / 2)
      (s := { mem := m, array := ⟨d₀, cap⟩, capacity := cap, curSize := initArray.size }) hle
      (by dsimp only; omega) (fun p hp => h.alive p (hitems ▸ hp))
      (isHeapFrom_half (by dsimp only; omega))
    refine ⟨d, ?_, hheap, hperm.trans ?_⟩
    · rw [show (Arr.fill cap none : Arr Ptr).size = cap from rfl, hrun, pure_bind]
    · rw [items, hitems]

/-- The heap that the second constructor makes. -/
theorem InitArray.holds {initArray : Arr Ptr} (h : InitArray m initArray) {cap : ℕ}
    (hle : initArray.size ≤ cap) (hpos : 0 < cap) (hheap : IsHeap (keyOf m ∘ d) initArray.size)
    (hperm : (itemsOf d initArray.size).Perm (itemsOf initArray.data initArray.size)) :
    Holds { mem := m, array := ⟨d, cap⟩, capacity := cap, curSize := initArray.size } where
  size := rfl
  pos := hpos
  le := hle
  heap := hheap
  nodup := hperm.nodup_iff.mpr h.nodup
  alive := fun p hp => h.alive p (hperm.mem_iff.mp hp)
  own := fun a t ht => hperm.mem_iff.mpr (h.own a t ht)

/-! ### Insertion -/

/-- A turn of the loop, at a hole with a parent: the parent moves down if it is greater. -/
theorem upLoop_turn (hpos : 0 < hole) (hhole : hole < s.array.size) (htemp : Alive s.mem temp)
    (hparent : Alive s.mem (s.array.data (parent hole))) :
    upLoop s temp hole =
      if keyOf s.mem (s.array.data (parent hole)) ≤ keyOf s.mem temp then pure (s, hole)
      else upLoop { s with array :=
        ⟨Function.update s.array.data hole (s.array.data (parent hole)), s.array.size⟩ } temp
          (parent hole) := by
  have hp : parent hole < s.array.size := (parent_lt hpos).trans hhole
  obtain ⟨t, ht, htk⟩ := read_eq htemp
  rw [upLoop, if_pos hpos]
  dsimp only
  rw [show (hole - 1) / 2 = parent hole from rfl, expireOf_eq hp hparent, pure_bind, ht, pure_bind,
    ← htk, Arr.get_eq hp, pure_bind, Arr.put_eq hhole, pure_bind]

/-- **The loop of `add_timer`**: with the hole filled by the new timer, the order is broken
at the hole only, and in the end not at all. -/
theorem upLoop_spec (hsize : s.curSize ≤ s.array.size) (hhole : hole < s.curSize)
    (halive : ∀ p ∈ itemsOf (Function.update s.array.data hole temp) s.curSize, Alive s.mem p)
    (hord : UpOrder (keyOf s.mem ∘ Function.update s.array.data hole temp) s.curSize hole) :
    ∃ d hole', upLoop s temp hole = pure ({ s with array := ⟨d, s.array.size⟩ }, hole') ∧
      hole' < s.curSize ∧
      IsHeap (keyOf s.mem ∘ Function.update d hole' temp) s.curSize ∧
      (itemsOf (Function.update d hole' temp) s.curSize).Perm
        (itemsOf (Function.update s.array.data hole temp) s.curSize) := by
  induction hole using Nat.strong_induction_on generalizing s with
  | h hole ih =>
    obtain ⟨v, hv⟩ : ∃ v, v = Function.update s.array.data hole temp := ⟨_, rfl⟩
    have hself : v hole = temp := by rw [hv, Function.update_self]
    have hother : ∀ i, i ≠ hole → v i = s.array.data i := fun i hi => by
      rw [hv, Function.update_of_ne hi]
    rw [← hv] at halive hord
    have hlive : ∀ i < s.curSize, Alive s.mem (v i) := fun i hi => halive _ (mem_itemsOf_of_lt hi)
    rcases Nat.eq_zero_or_pos hole with rfl | hpos
    · -- the root has no parent to compare with
      rw [upLoop, if_neg (lt_irrefl 0)]
      refine ⟨s.array.data, 0, rfl, hhole, ?_, .refl _⟩
      rw [← hv]
      exact hord.isHeap fun h => absurd h (lt_irrefl 0)
    · have hp : parent hole < hole := parent_lt hpos
      have hpn : parent hole < s.curSize := hp.trans hhole
      rw [upLoop_turn hpos (hhole.trans_le hsize) (hself ▸ hlive hole hhole)
        (hother _ hp.ne ▸ hlive _ hpn)]
      by_cases hle : keyOf s.mem (s.array.data (parent hole)) ≤ keyOf s.mem temp
      · rw [if_pos hle]
        refine ⟨s.array.data, hole, rfl, hhole, ?_, .refl _⟩
        rw [← hv]
        refine hord.isHeap fun _ => ?_
        rw [Function.comp_apply, Function.comp_apply, hself, hother _ hp.ne]
        exact hle
      · -- the parent moves down, and the hole up
        have hswap : Function.update (Function.update s.array.data hole
            (s.array.data (parent hole))) (parent hole) temp =
              v ∘ Equiv.swap hole (parent hole) := by rw [hv, update_hole _ _ hp.ne']
        have hperm : (itemsOf (v ∘ Equiv.swap hole (parent hole)) s.curSize).Perm
            (itemsOf v s.curSize) := map_swap_perm v hhole hpn
        rw [if_neg hle]
        obtain ⟨d, hole', hrun, hlt', hheap, hperm'⟩ := ih (parent hole) hp
          (s := { s with array := ⟨Function.update s.array.data hole
            (s.array.data (parent hole)), s.array.size⟩ }) hsize hpn
          (by
            rw [hswap]
            exact fun p hp => halive p (hperm.mem_iff.mp hp))
          (by
            rw [hswap]
            refine hord.swap hpos hhole ?_
            rw [Function.comp_apply, Function.comp_apply, hself, hother _ hp.ne]
            exact not_le.mp hle)
        refine ⟨d, hole', hrun, hlt', hheap, hperm'.trans ?_⟩
        rw [hswap, ← hv]
        exact hperm

/-- **`resize`** doubles the capacity, and keeps the elements. -/
theorem resize_spec (hsize : s.curSize ≤ s.array.size) (hcap : s.curSize ≤ 2 * s.capacity) :
    ∃ d, resize s =
        pure { s with array := ⟨d, s.capacity * 2⟩, capacity := s.capacity * 2 } ∧
      ∀ i < s.curSize, d i = s.array.data i := by
  have hcopy := Arr.copy_eq hsize
    (show s.curSize ≤ (Arr.fill (2 * s.capacity) (none : Ptr)).size from hcap)
  refine ⟨fun i => if i < s.curSize then s.array.data i else none, ?_, fun i hi => if_pos hi⟩
  rw [resize, hcopy, pure_bind, mul_comm s.capacity 2]
  rfl

/-- The timers of a memory, with their deadlines. -/
def pending (m : Mem (HeapTimer σ)) : Pending Addr ℤ := fun a => (m a).map HeapTimer.expire

theorem pending_eq_some {u : ℤ} : pending m a = some u ↔ ∃ t, m a = some t ∧ t.expire = u :=
  Option.map_eq_some_iff

theorem pending_set (m : Mem (HeapTimer σ)) (a : Addr) (t : HeapTimer σ) :
    pending (m.set a t) = (pending m).add a t.expire :=
  Pending.map_update_some m HeapTimer.expire a t

theorem pending_clear (m : Mem (HeapTimer σ)) (a : Addr) :
    pending (m.clear a) = (pending m).remove a :=
  Pending.map_update_none m HeapTimer.expire a

theorem keyOf_set_of_ne (h : p ≠ some a) (t : HeapTimer σ) : keyOf (m.set a t) p = keyOf m p := by
  rcases p with _ | b
  · rfl
  · have hb : b ≠ a := fun hc => h (by rw [hc])
    rw [keyOf, keyOf, Option.bind_some, Option.bind_some, Mem.set_of_ne _ _ hb]

theorem keyOf_clear_of_ne (h : p ≠ some a) : keyOf (m.clear a) p = keyOf m p := by
  rcases p with _ | b
  · rfl
  · have hb : b ≠ a := fun hc => h (by rw [hc])
    rw [keyOf, keyOf, Option.bind_some, Option.bind_some, Mem.clear_of_ne _ hb]

theorem alive_clear_of_ne (h : Alive m p) (hne : p ≠ some a) : Alive (m.clear a) p := by
  obtain ⟨b, t, rfl, ht⟩ := h
  exact ⟨b, t, rfl, by rw [Mem.clear_of_ne _ fun hc => hne (by rw [hc]), ht]⟩

/-- **There is room for one element more**, in the array or in a longer one. -/
theorem makeRoom (h : Holds s) (m : Mem (HeapTimer σ)) :
    ∃ d cap, (if s.curSize ≥ s.capacity then resize { s with mem := m }
        else pure { s with mem := m }) =
        (pure { s with mem := m, array := ⟨d, cap⟩, capacity := cap } : Exec (TimeHeap σ)) ∧
      (∀ i < s.curSize, d i = s.array.data i) ∧ s.curSize < cap := by
  rcases le_or_gt s.capacity s.curSize with hfull | hroom
  · have hpos := h.pos
    have hle := h.le
    obtain ⟨d, hrun, hd⟩ := resize_spec (s := { s with mem := m }) h.curSize_le
      (show s.curSize ≤ 2 * s.capacity by omega)
    -- twice a positive capacity is more than what the array was full of
    exact ⟨d, s.capacity * 2, by rw [if_pos hfull, hrun], hd, by omega⟩
  · refine ⟨s.array.data, s.capacity, ?_, fun _ _ => rfl, hroom⟩
    rw [if_neg (not_le.mpr hroom), ← h.size]

/-- **`add_timer`** inserts a timer, in an array that is longer if need be. -/
theorem addTimer_spec (h : Holds s) (hx : s.mem x = none) (t : HeapTimer σ) :
    ∃ s', addTimer { s with mem := s.mem.set x t } (some x) = pure s' ∧ Holds s' ∧
      s'.items.Perm (some x :: s.items) ∧ s'.mem = s.mem.set x t := by
  have hne : ∀ p ∈ s.items, p ≠ some x := by
    rintro p hp rfl
    obtain ⟨b, u, hb, hu⟩ := h.alive _ hp
    obtain rfl := Option.some.inj hb
    rw [hx] at hu
    cases hu
  obtain ⟨d, cap, hrun, hd, hcap⟩ := makeRoom h (s.mem.set x t)
  -- `v` is the array with the timer in its last place, where it may be out of order
  obtain ⟨v, hv⟩ : ∃ v, v = Function.update d s.curSize (some x) := ⟨_, rfl⟩
  have hitems : itemsOf v (s.curSize + 1) = s.items ++ [some x] := by
    rw [hv, itemsOf, map_push, items, itemsOf]
    refine congrArg (· ++ [some x]) (List.map_congr_left fun i hi => ?_)
    exact hd i (List.mem_range.mp hi)
  have hperm : (itemsOf v (s.curSize + 1)).Perm (some x :: s.items) :=
    hitems ▸ List.perm_append_singleton _ _
  have halive : ∀ p ∈ itemsOf v (s.curSize + 1), Alive (s.mem.set x t) p := by
    intro p hp
    rcases List.mem_cons.mp (hperm.mem_iff.mp hp) with rfl | hp
    · exact alive_some (Mem.set_self _ _ _)
    · obtain ⟨b, u, rfl, hu⟩ := h.alive p hp
      have hbx : b ≠ x := fun hc => hne _ hp (by rw [hc])
      exact alive_some ((Mem.set_of_ne _ _ hbx).trans hu)
  have hord : UpOrder (keyOf (s.mem.set x t) ∘ v) (s.curSize + 1) s.curSize := by
    refine IsHeap.push h.heap fun i hi => ?_
    have hvi : v i = s.array.data i := by rw [hv, Function.update_of_ne hi.ne, hd i hi]
    rw [Function.comp_apply, Function.comp_apply, hvi,
      keyOf_set_of_ne (hne _ (mem_itemsOf_of_lt hi))]
  have hord' : UpOrder (keyOf (s.mem.set x t) ∘ Function.update d s.curSize (some x))
      (s.curSize + 1) s.curSize := by
    rwa [← hv]
  obtain ⟨d', hole', hup, hlt, hheap, hperm'⟩ := upLoop_spec
    (s := { mem := s.mem.set x t, array := ⟨d, cap⟩, capacity := cap, curSize := s.curSize + 1 })
    hcap (Nat.lt_succ_self _) (by rw [← hv]; exact halive) hord'
  rw [← hv] at hperm'
  dsimp only at hup hlt hheap hperm'
  have hall := hperm'.trans hperm
  refine ⟨{ mem := s.mem.set x t
            array := ⟨Function.update d' hole' (some x), cap⟩
            capacity := cap
            curSize := s.curSize + 1 }, ?_,
    ⟨rfl, by dsimp only; omega, hcap, hheap, ?_, ?_, ?_⟩, hall, rfl⟩
  · rw [addTimer, if_neg (by simp)]
    dsimp only
    rw [hrun, pure_bind]
    dsimp only
    rw [hup, pure_bind]
    dsimp only
    rw [Arr.put, if_pos (show hole' < cap by omega), pure_bind]
  · refine hall.nodup_iff.mpr (List.nodup_cons.mpr ⟨fun hc => hne _ hc rfl, h.nodup⟩)
  · exact fun p hp => halive p (hperm'.mem_iff.mp hp)
  · intro a u hu
    refine hall.mem_iff.mpr ?_
    by_cases hax : a = x
    · rw [hax]
      exact List.mem_cons_self
    · change s.mem.set x t a = some u at hu
      rw [Mem.set_of_ne _ _ hax] at hu
      exact List.mem_cons_of_mem _ (h.own a u hu)

/-! ### Cancellation -/

/-- **`del_timer`** takes the callback of a timer away, and nothing else. -/
theorem delTimer_spec (h : Holds s) (hx : s.mem x = some t) :
    ∃ s', delTimer s (some x) = pure s' ∧ Holds s' ∧ s'.items = s.items ∧
      s'.mem = s.mem.set x { t with cbFunc := none } := by
  have hkey : keyOf (s.mem.set x { t with cbFunc := none }) = keyOf s.mem := by
    funext p
    by_cases hp : p = some x
    · rw [hp, keyOf_some (Mem.set_self _ _ _), keyOf_some hx]
    · exact keyOf_set_of_ne hp _
  refine ⟨{ s with mem := s.mem.set x { t with cbFunc := none } }, ?_,
    ⟨h.size, h.pos, h.le, ?_, h.nodup, fun p hp => ?_, fun a u hu => ?_⟩, rfl, rfl⟩
  · rw [delTimer, if_neg (by simp), Mem.modify_some hx, pure_bind]
  · dsimp only
    rw [hkey]
    exact h.heap
  · obtain ⟨b, u, rfl, hu⟩ := h.alive p hp
    by_cases hb : b = x
    · rw [hb]
      exact alive_some (Mem.set_self _ _ _)
    · exact alive_some ((Mem.set_of_ne _ _ hb).trans hu)
  · by_cases hax : a = x
    · rw [hax]
      exact h.own x t hx
    · change s.mem.set x _ a = some u at hu
      rw [Mem.set_of_ne _ _ hax] at hu
      exact h.own a u hu

/-! ### Removal -/

/-- The first element of a heap that is not empty is its earliest timer. -/
theorem Holds.earliest (h : Holds s) (hne : s.curSize ≠ 0) :
    ∃ a t, s.array.data 0 = some a ∧ s.mem a = some t ∧
      ∀ b u, pending s.mem b = some u → t.expire ≤ u := by
  have hpos : 0 < s.curSize := Nat.pos_of_ne_zero hne
  obtain ⟨a, t, ha, ht⟩ := h.alive _ (mem_itemsOf_of_lt hpos)
  refine ⟨a, t, ha, ht, fun b u hu => ?_⟩
  obtain ⟨t', ht', rfl⟩ := pending_eq_some.mp hu
  obtain ⟨i, hi, hib⟩ := mem_itemsOf.mp (h.own b t' ht')
  have hroot := h.heap.root_le hi
  rwa [Function.comp_apply, Function.comp_apply, ha, hib, keyOf_some ht, keyOf_some ht'] at hroot

/-- **`pop_timer`** removes and deletes the first element. -/
theorem popTimer_spec (h : Holds s) (hne : s.curSize ≠ 0) (ha : s.array.data 0 = some a)
    (ht : s.mem a = some t) :
    ∃ s', popTimer s = pure s' ∧ Holds s' ∧ s.items.Perm (some a :: s'.items) ∧
      s'.mem = s.mem.clear a := by
  obtain ⟨n, hn⟩ : ∃ n, s.curSize = n + 1 := Nat.exists_eq_succ_of_ne_zero hne
  have hsize := h.curSize_le
  obtain ⟨v, hv⟩ : ∃ v, v = Function.update s.array.data 0 (s.array.data n) := ⟨_, rfl⟩
  have hperm : s.items.Perm (some a :: itemsOf v n) := by
    rw [items, itemsOf, hn, ← ha, hv]
    exact map_pop_perm _ _
  have hnd := List.nodup_cons.mp (hperm.nodup_iff.mp h.nodup)
  have halive : ∀ p ∈ itemsOf v n, Alive (s.mem.clear a) p := fun p hp =>
    alive_clear_of_ne (h.alive p (hperm.mem_iff.mpr (List.mem_cons_of_mem _ hp)))
      (ne_of_mem_of_not_mem hp hnd.1)
  have hown : ∀ b u, s.mem.clear a b = some u → some b ∈ itemsOf v n := by
    intro b u hu
    have hba : b ≠ a := by
      rintro rfl
      rw [Mem.clear_self] at hu
      cases hu
    rw [Mem.clear_of_ne _ hba] at hu
    exact (List.mem_cons.mp (hperm.mem_iff.mp (h.own b u hu))).resolve_left
      fun hc => hba (Option.some.inj hc)
  have hcode : popTimer s = percolateDown { s with
      mem := s.mem.clear a, array := ⟨v, s.array.size⟩, curSize := n } 0 := by
    rw [popTimer, if_neg hne, Arr.get_eq (by omega), pure_bind, ha, if_pos (by simp),
      Mem.delete_some ht, pure_bind, show s.curSize - 1 = n by omega, Arr.get_eq (by omega),
      pure_bind, Arr.put_eq (by omega), pure_bind, hv]
  rw [hcode]
  rcases Nat.eq_zero_or_pos n with rfl | hpos
  · -- it was the only one
    have hzero := percolateDown_zero (s := { s with
      mem := s.mem.clear a, array := ⟨v, s.array.size⟩, curSize := 0 }) rfl
      (show 0 < s.array.size by omega)
    exact ⟨_, hzero, ⟨h.size, h.pos, Nat.zero_le _, isHeapFrom_half (Nat.zero_le _), List.nodup_nil,
      halive, hown⟩, hperm, rfl⟩
  · -- the order is whole but for the element that has been put in front
    have hord : DownOrder 0 (keyOf (s.mem.clear a) ∘ v) n 0 := by
      refine IsHeapFrom.downOrder fun c hc hcn hlo => ?_
      have hvc : ∀ i, 0 < i → i < n →
          (keyOf (s.mem.clear a) ∘ v) i = (keyOf s.mem ∘ s.array.data) i := fun i hi hin => by
        have hia : v i ≠ some a := ne_of_mem_of_not_mem (mem_itemsOf_of_lt hin) hnd.1
        rw [Function.comp_apply, keyOf_clear_of_ne hia, hv, Function.update_of_ne (by omega),
          Function.comp_apply]
      have hlt := parent_lt hc
      rw [hvc _ (by omega) (by omega), hvc c hc hcn]
      exact h.heap c hc (by omega) (Nat.zero_le _)
    obtain ⟨d, hrun, hheap, hperm'⟩ := percolateDown_spec
      (s := { s with mem := s.mem.clear a, array := ⟨v, s.array.size⟩, curSize := n })
      (show n ≤ s.array.size by omega) hpos halive hord
    refine ⟨_, hrun, ⟨h.size, h.pos, ?_, hheap, hperm'.nodup_iff.mpr hnd.2,
      fun p hp => halive p (hperm'.mem_iff.mp hp),
      fun b u hu => hperm'.mem_iff.mpr (hown b u hu)⟩, hperm.trans (hperm'.symm.cons _), rfl⟩
    have hle := h.le
    dsimp only
    omega

/-! ### The tick -/

/-- What the callback of the timer at `a` does to the environment, if it has one. -/
def call (m : Mem (HeapTimer σ)) (env : σ) (a : Addr) : σ :=
  match m a with
  | none => env
  | some t => (callback t env).1

/-- Whether the timer at `a` has a callback. -/
def isSet (m : Mem (HeapTimer σ)) (a : Addr) : Bool :=
  match m a with
  | none => false
  | some t => t.cbFunc.isSome

theorem callback_eq (ht : m a = some t) (env : σ) :
    callback t env = (call m env a, isSet m a) := by
  simp only [call, isSet, ht]
  rw [callback]
  cases t.cbFunc <;> rfl

theorem call_congr {m' : Mem (HeapTimer σ)} (h : m' a = m a) (env : σ) :
    call m' env a = call m env a := by
  rw [call, call, h]

theorem isSet_congr {m' : Mem (HeapTimer σ)} (h : m' a = m a) : isSet m' a = isSet m a := by
  rw [isSet, isSet, h]

theorem foldl_call_congr {m' : Mem (HeapTimer σ)} {out : List Addr} (h : ∀ a ∈ out, m' a = m a)
    (env : σ) : out.foldl (call m') env = out.foldl (call m) env := by
  induction out generalizing env with
  | nil => rfl
  | cons a out ih =>
    rw [List.foldl_cons, List.foldl_cons, call_congr (h a List.mem_cons_self)]
    exact ih (fun b hb => h b (List.mem_cons_of_mem a hb)) _

theorem length_items (s : TimeHeap σ) : s.items.length = s.curSize := by
  rw [items, itemsOf, List.length_map, List.length_range]

/-- **The loop of `tick`** pops the due timers, the earliest first. -/
theorem tickLoop_spec (cur : ℤ) (h : Holds s) (env : σ) :
    ∃ s' out, tickLoop cur s env (s.array.data 0) =
        pure (s', out.foldl (call s.mem) env, out.map fun a => (some a, isSet s.mem a)) ∧
      Holds s' ∧ (pending s.mem).Expires cur out (pending s'.mem) ∧
      s.items.Perm (out.map some ++ s'.items) ∧
      ∀ a, a ∉ out → s'.mem a = s.mem a := by
  obtain ⟨n, hn⟩ : ∃ n, n = s.curSize := ⟨_, rfl⟩
  induction n generalizing s env with
  | zero =>
    have hnil : s.items = [] := List.length_eq_zero_iff.mp ((length_items s).trans hn.symm)
    rw [tickLoop, if_pos hn.symm]
    refine ⟨s, [], rfl, h, Pending.expires_stop fun a u hu => ?_, .refl _, fun _ _ => rfl⟩
    obtain ⟨t, ht, -⟩ := pending_eq_some.mp hu
    exact absurd (hnil ▸ h.own a t ht) List.not_mem_nil
  | succ n ih =>
    have hne : s.curSize ≠ 0 := by omega
    obtain ⟨a, t, ha, ht, hmin⟩ := h.earliest hne
    rw [tickLoop, if_neg hne, ha, if_neg (by simp), Mem.read_some ht, pure_bind]
    by_cases hdue : t.expire > cur
    · rw [if_pos hdue]
      exact ⟨s, [], rfl, h, Pending.expires_stop fun b u hu => hdue.trans_le (hmin b u hu),
        .refl _, fun _ _ => rfl⟩
    · -- the earliest timer is popped, and the loop goes on with the next one
      obtain ⟨s₁, hpop, hs₁, hperm, hmem⟩ := popTimer_spec h hne ha ht
      have hlen := hperm.length_eq
      rw [length_items, List.length_cons, length_items] at hlen
      obtain ⟨s', out, hrun, hs', hexp, hperm', hframe⟩ := ih hs₁ (call s.mem env a) (by omega)
      have hout : ∀ b ∈ out, s₁.mem b = s.mem b := by
        intro b hb
        obtain ⟨u, hu, -⟩ := (hexp.mem_iff b).mp hb
        obtain ⟨t', ht', -⟩ := pending_eq_some.mp hu
        rw [hmem]
        refine Mem.clear_of_ne _ ?_
        rintro rfl
        rw [hmem, Mem.clear_self] at ht'
        cases ht'
      have hget : s.array.get 0 = pure (some a) := by
        rw [Arr.get_eq (h.size.symm ▸ h.pos), ha]
      refine ⟨s', a :: out, ?_, hs', ?_, ?_, fun b hb => ?_⟩
      · rw [if_neg hdue, hget, pure_bind, Mem.read_some ht, pure_bind, callback_eq ht]
        dsimp only
        rw [hpop, pure_bind, Arr.get_eq (hs₁.size.symm ▸ hs₁.pos), pure_bind, hrun, pure_bind,
          List.foldl_cons, foldl_call_congr hout]
        refine congrArg (fun l => pure (s', _, (some a, isSet s.mem a) :: l)) ?_
        exact List.map_congr_left fun b hb => by rw [isSet_congr (hout b hb)]
      · refine Pending.Expires.cons (pending_eq_some.mpr ⟨t, ht, rfl⟩) (not_lt.mp hdue) hmin ?_
        rw [← pending_clear, ← hmem]
        exact hexp
      · exact hperm.trans (hperm'.cons _)
      · obtain ⟨hba, hbo⟩ := not_or.mp (mt List.mem_cons.mpr hb)
        rw [hframe b hbo, hmem, Mem.clear_of_ne _ hba]

/-- **`tick`** pops the due timers, the earliest first, and calls those that have a
callback. -/
theorem tick_spec (cur : ℤ) (h : Holds s) (env : σ) :
    ∃ s' out, tick cur s env =
        pure (s', out.foldl (call s.mem) env, out.map fun a => (some a, isSet s.mem a)) ∧
      Holds s' ∧ (pending s.mem).Expires cur out (pending s'.mem) ∧
      s.items.Perm (out.map some ++ s'.items) ∧
      ∀ a, a ∉ out → s'.mem a = s.mem a := by
  obtain ⟨s', out, hrun, hspec⟩ := tickLoop_spec cur h env
  refine ⟨s', out, ?_, hspec⟩
  rw [tick, Arr.get_eq (h.size.symm ▸ h.pos), pure_bind, hrun]

end TimeHeap

end Candcpp
