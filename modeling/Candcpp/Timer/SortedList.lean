import Candcpp.Cpp.Dll
import Candcpp.Timer.Pending

/-!
# The ascending timer list

The class `sorted_timer_list` of `ascending_linkedlist_timer_impl.h`: timers on a
doubly linked list in the order of their `expire`, with a `head` and a `tail`
pointer. The list does not own the creation of its timers – the caller does
`new util_timer` – but it deletes them.

The functions are those of the source, over `Candcpp.Cpp.Exec`: a null or dangling
pointer that is dereferenced is a fault, and a loop that does not end does not
return. `time_t` is `ℤ`. The environment `σ` is whatever the callbacks act on; they
have no access to the list, so a callback is a function of the environment.

What the functions do is stated on the list of addresses `l` that a list object
holds (`Candcpp.SortedTimerList.Holds`):

| function | what it does to `l` | theorem |
|---|---|---|
| `addTimerFrom` | inserts after a node, in order | `Candcpp.SortedTimerList.addTimerFrom_spec` |
| `addTimer` | inserts in order | `Candcpp.SortedTimerList.addTimer_spec` |
| `adjustTimer` | moves a timer towards the tail | `Candcpp.SortedTimerList.adjustTimer_spec` |
| `delTimer` | removes and deletes a timer | `Candcpp.SortedTimerList.delTimer_spec` |
| `tick` | fires and deletes the due timers | `Candcpp.SortedTimerList.tick_spec` |
-/

namespace Candcpp

open Cpp DLink

/-! ### The classes -/

/-- `class util_timer`. The callback acts on the environment, given the timer's
`user_data`. -/
structure UtilTimer (σ : Type) where
  prev : Ptr
  next : Ptr
  userData : ℕ
  expire : ℤ
  cbFunc : ℕ → σ → σ

namespace UtilTimer

variable {σ : Type}

/-- `new util_timer`, after its creator has filled in the three public fields. -/
def create (userData : ℕ) (expire : ℤ) (cbFunc : ℕ → σ → σ) : UtilTimer σ where
  prev := none
  next := none
  userData := userData
  expire := expire
  cbFunc := cbFunc

instance : DLink (UtilTimer σ) where
  prev := UtilTimer.prev
  next := UtilTimer.next
  setPrev := fun p t => { t with prev := p }
  setNext := fun p t => { t with next := p }
  prev_setPrev := fun _ _ => rfl
  next_setPrev := fun _ _ => rfl
  prev_setNext := fun _ _ => rfl
  next_setNext := fun _ _ => rfl

/-- What a timer holds besides its two pointers. -/
def payload (t : UtilTimer σ) : ℕ × ℤ × (ℕ → σ → σ) := (t.userData, t.expire, t.cbFunc)

end UtilTimer

/-- `class sorted_timer_list`, together with the heap of the timers. -/
structure SortedTimerList (σ : Type) where
  mem : Mem (UtilTimer σ)
  head : Ptr
  tail : Ptr

namespace SortedTimerList

variable {σ : Type}

/-- `sorted_timer_list()`, on an empty heap. -/
def empty : SortedTimerList σ where
  mem := fun _ => none
  head := none
  tail := none

/-! ### The functions -/

/-- The `while` loop of the private `add_timer`: the two pointers between which
`timer` goes, from `prev` and `tmp` on. -/
def insertPos (m : Mem (UtilTimer σ)) (timer prev tmp : Ptr) : Exec (Ptr × Ptr) :=
  match tmp with
  | none => pure (prev, none)
  | some a => do
    let +zeta insertPos : type_of% insertPos := by apply insertPos
    let t ← m.read timer
    let u ← m.read (some a)
    if t.expire > u.expire then insertPos m timer (some a) u.next else pure (prev, some a)
partial_fixpoint

/-- `add_timer(timer, head)`, the private overload: `timer` is inserted after the
node `head`, whose `expire` is not greater. -/
def addTimerFrom (s : SortedTimerList σ) (timer head : Ptr) : Exec (SortedTimerList σ) := do
  let h ← s.mem.read head
  let (prev, tmp) ← insertPos s.mem timer head h.next
  let m ← s.mem.modify prev (setNext timer)
  let m ← m.modify timer (setPrev prev)
  if tmp ≠ none then
    let m ← m.modify timer (setNext tmp)
    let m ← m.modify tmp (setPrev timer)
    pure { s with mem := m }
  else
    let m ← m.modify timer (setNext none)
    pure { s with mem := m, tail := timer }

/-- `add_timer(timer)`. -/
def addTimer (s : SortedTimerList σ) (timer : Ptr) : Exec (SortedTimerList σ) :=
  if timer = none then pure s
  else if s.head = none then pure { s with head := timer, tail := timer }
  else do
    let t ← s.mem.read timer
    let h ← s.mem.read s.head
    if t.expire < h.expire then
      let m ← s.mem.modify timer (setNext s.head)
      let m ← m.modify s.head (setPrev timer)
      pure { s with mem := m, head := timer }
    else addTimerFrom s timer s.head

/-- `adjust_timer(timer)`. -/
def adjustTimer (s : SortedTimerList σ) (timer : Ptr) : Exec (SortedTimerList σ) :=
  if timer = none then pure s
  else do
    let t ← s.mem.read timer
    let tmp := t.next
    -- `!tmp || timer->expire < tmp->expire`
    let stays ← (if tmp = none then pure true else do
      let u ← s.mem.read tmp
      pure (decide (t.expire < u.expire)))
    if stays then pure s
    else if timer = s.head then
      let h ← s.mem.read s.head
      let head := h.next
      let m ← s.mem.modify head (setPrev none)
      let m ← m.modify timer (setNext none)
      addTimerFrom { s with mem := m, head := head } timer head
    else
      let m ← s.mem.modify t.prev (setNext t.next)
      let t ← m.read timer
      let m ← m.modify t.next (setPrev t.prev)
      let t ← m.read timer
      addTimerFrom { s with mem := m } timer t.next

/-- `del_timer(timer)`. -/
def delTimer (s : SortedTimerList σ) (timer : Ptr) : Exec (SortedTimerList σ) :=
  if timer = none then pure s
  else if timer = s.head ∧ timer = s.tail then do
    let m ← s.mem.delete timer
    pure { mem := m, head := none, tail := none }
  else if timer = s.head then do
    let h ← s.mem.read s.head
    let head := h.next
    let m ← s.mem.modify head (setPrev none)
    let m ← m.delete timer
    pure { s with mem := m, head := head }
  else if timer = s.tail then do
    let t ← s.mem.read s.tail
    let tail := t.prev
    let m ← s.mem.modify tail (setNext none)
    let m ← m.delete timer
    pure { s with mem := m, tail := tail }
  else do
    let t ← s.mem.read timer
    let m ← s.mem.modify t.prev (setNext t.next)
    let t ← m.read timer
    let m ← m.modify t.next (setPrev t.prev)
    let m ← m.delete timer
    pure { s with mem := m }

/-- The `while` loop of `tick`. It also returns the timers whose callback it has
invoked, in order. -/
def tickLoop (cur : ℤ) (s : SortedTimerList σ) (env : σ) (tmp : Ptr) :
    Exec (SortedTimerList σ × σ × List Addr) :=
  match tmp with
  | none => pure (s, env, [])
  | some a => do
    let +zeta tickLoop : type_of% tickLoop := by apply tickLoop
    let t ← s.mem.read (some a)
    if cur < t.expire then pure (s, env, [])
    else
      let env := t.cbFunc t.userData env
      let head := t.next
      let m ← (if head ≠ none then s.mem.modify head (setPrev none) else pure s.mem)
      let m ← m.delete (some a)
      let (s, env, fired) ← tickLoop cur { s with mem := m, head := head } env head
      pure (s, env, a :: fired)
partial_fixpoint

/-- `tick()`, when the clock reads `cur`. -/
def tick (cur : ℤ) (s : SortedTimerList σ) (env : σ) : Exec (SortedTimerList σ × σ × List Addr) :=
  if s.head = none then pure (s, env, []) else tickLoop cur s env s.head

/-! ### What a list object holds -/

/-- The `expire` of the timer at an address. -/
def expireAt (m : Mem (UtilTimer σ)) (a : Addr) : ℤ := ((m a).map UtilTimer.expire).getD 0

/-- The pending timers of a memory, with their `expire`. -/
def pending (m : Mem (UtilTimer σ)) : Pending Addr ℤ := fun a => (m a).map UtilTimer.expire

/-- Two memories with the same timers, up to the two pointers. -/
def SamePayload (m m' : Mem (UtilTimer σ)) : Prop :=
  ∀ a, (m' a).map UtilTimer.payload = (m a).map UtilTimer.payload

/-- **The representation**: the list object holds the timers `l`, linked in both
directions, and `tail` is the last of them. -/
structure Holds (s : SortedTimerList σ) (l : List Addr) : Prop where
  seg : Seg s.mem none s.head l none
  nodup : l.Nodup
  tail : l ≠ [] → s.tail = l.getLast?

/-- The timers of a list are in non-decreasing order of their `expire`. -/
def Ascending (m : Mem (UtilTimer σ)) (l : List Addr) : Prop :=
  l.Pairwise fun a b => expireAt m a ≤ expireAt m b

variable {m m' m'' : Mem (UtilTimer σ)} {s s' : SortedTimerList σ} {l l₁ l₂ : List Addr}
  {a x : Addr} {t : UtilTimer σ}

theorem expireAt_some (h : m a = some t) : expireAt m a = t.expire := by
  rw [expireAt, h]
  rfl

theorem SamePayload.refl (m : Mem (UtilTimer σ)) : SamePayload m m := fun _ => rfl

theorem SamePayload.trans (h : SamePayload m m') (h' : SamePayload m' m'') : SamePayload m m'' :=
  fun a => (h' a).trans (h a)

theorem SamePayload.linkNext (h : SamePayload m m') (p q : Ptr) :
    SamePayload m (Cpp.linkNext m' p q) :=
  fun a => (linkNext_map (fun _ _ => rfl) m' p q a).trans (h a)

theorem SamePayload.linkPrev (h : SamePayload m m') (p q : Ptr) :
    SamePayload m (Cpp.linkPrev m' p q) :=
  fun a => (linkPrev_map (fun _ _ => rfl) m' p q a).trans (h a)

theorem SamePayload.clear (h : SamePayload m m') (a : Addr) :
    SamePayload (m.clear a) (m'.clear a) := by
  intro b
  by_cases hb : b = a
  · rw [hb, Mem.clear_self, Mem.clear_self]
  · rw [Mem.clear_of_ne _ hb, Mem.clear_of_ne _ hb, h b]

/-- A field of the payload is the same in both memories. -/
theorem SamePayload.map_eq {δ : Type} (h : SamePayload m m') (f : ℕ × ℤ × (ℕ → σ → σ) → δ)
    (a : Addr) :
    (m' a).map (fun t => f t.payload) = (m a).map (fun t => f t.payload) := by
  have := congrArg (Option.map f) (h a)
  rwa [Option.map_map, Option.map_map] at this

theorem SamePayload.pending_eq (h : SamePayload m m') : pending m' = pending m :=
  funext fun a => h.map_eq (fun y => y.2.1) a

theorem SamePayload.expireAt_eq (h : SamePayload m m') : expireAt m' = expireAt m :=
  funext fun a => congrArg (fun o => Option.getD o 0) (congrFun h.pending_eq a)

theorem SamePayload.ascending (h : SamePayload m m') (hl : Ascending m l) : Ascending m' l := by
  rwa [Ascending, h.expireAt_eq]

theorem SamePayload.some (h : SamePayload m m') (ha : m a = .some t) :
    ∃ t', m' a = .some t' ∧ t'.payload = t.payload := by
  have := h a
  rw [ha] at this
  obtain ⟨t', ht', hp⟩ := Option.map_eq_some_iff.mp this
  exact ⟨t', ht', hp⟩

theorem SamePayload.alive_iff (h : SamePayload m m') (a : Addr) : m' a = none ↔ m a = none := by
  rw [← Option.map_eq_none_iff (f := UtilTimer.payload), h a, Option.map_eq_none_iff]

/-- The `head` of a list object is its first timer. -/
theorem Holds.head (h : Holds s l) : s.head = l.head? := by
  rw [h.seg.first, headOr_none]

/-! ### Insertion -/

/-- **The insertion loop** stops between the timers that expire before the new
one and the others. -/
theorem insertPos_spec (hx : m x = some t) {pv p : Ptr} (h : Seg m pv p l none) (prev : Ptr) :
    insertPos m (some x) prev p =
      pure (lastOr prev (l.takeWhile fun b => ¬expireAt m x ≤ expireAt m b),
        (l.dropWhile fun b => ¬expireAt m x ≤ expireAt m b).head?) := by
  induction l generalizing pv p prev with
  | nil =>
    rw [show p = none from h, insertPos]
    rfl
  | cons b l ih =>
    obtain ⟨rfl, u, hu, -, hl⟩ := h
    rw [insertPos]
    simp only [Mem.read_some hx, Mem.read_some hu, pure_bind]
    by_cases hlt : u.expire < t.expire
    · have hb : decide (¬expireAt m x ≤ expireAt m b) = true := by
        rw [expireAt_some hx, expireAt_some hu]
        exact decide_eq_true (not_le.mpr hlt)
      rw [if_pos hlt, List.takeWhile_cons_of_pos (by exact hb),
        List.dropWhile_cons_of_pos (by exact hb), lastOr_cons]
      exact ih hl (some b)
    · have hb : ¬decide (¬expireAt m x ≤ expireAt m b) = true := by
        rw [expireAt_some hx, expireAt_some hu]
        simpa using hlt
      rw [if_neg hlt, List.takeWhile_cons_of_neg (by exact hb),
        List.dropWhile_cons_of_neg (by exact hb)]
      rfl

/-- `l` with `x` inserted before the first timer that does not expire before it. -/
def insertSorted (m : Mem (UtilTimer σ)) (x : Addr) (l : List Addr) : List Addr :=
  l.orderedInsert (fun a b => expireAt m a ≤ expireAt m b) x

theorem insertSorted_perm (m : Mem (UtilTimer σ)) (x : Addr) (l : List Addr) :
    (insertSorted m x l).Perm (x :: l) := List.perm_orderedInsert _ x l

theorem Ascending.insertSorted (h : Ascending m l) :
    Ascending m (SortedTimerList.insertSorted m x l) :=
  haveI : Std.Total fun a b : Addr => expireAt m a ≤ expireAt m b := ⟨fun _ _ => le_total _ _⟩
  haveI : IsTrans Addr fun a b => expireAt m a ≤ expireAt m b := ⟨fun _ _ _ => le_trans⟩
  List.Pairwise.orderedInsert x l h

/-- Insertion after a timer that does not expire later keeps the order. -/
theorem Ascending.insertAfter (h : Ascending m (l₁ ++ a :: l₂))
    (hle : expireAt m a ≤ expireAt m x) :
    Ascending m (l₁ ++ a :: SortedTimerList.insertSorted m x l₂) := by
  obtain ⟨h₁, h₂, h₁₂⟩ := List.pairwise_append.mp h
  obtain ⟨hmin, hl₂⟩ := List.pairwise_cons.mp h₂
  have hmem : ∀ b ∈ SortedTimerList.insertSorted m x l₂, b = x ∨ b ∈ l₂ := fun b hb =>
    List.mem_cons.mp ((insertSorted_perm m x l₂).mem_iff.mp hb)
  refine List.pairwise_append.mpr ⟨h₁, List.pairwise_cons.mpr ⟨fun b hb => ?_,
    Ascending.insertSorted hl₂⟩, fun c hc b hb => ?_⟩
  · rcases hmem b hb with rfl | hb
    · exact hle
    · exact hmin b hb
  · have hca : expireAt m c ≤ expireAt m a := h₁₂ c hc a List.mem_cons_self
    rcases List.mem_cons.mp hb with rfl | hb
    · exact hca
    · rcases hmem b hb with rfl | hb
      · exact hca.trans hle
      · exact h₁₂ c hc b (List.mem_cons_of_mem a hb)

/-- The memory after `x` has been spliced in between `l₁` and `l₂`. -/
def spliced (m : Mem (UtilTimer σ)) (l₁ : List Addr) (x : Addr) (l₂ : List Addr) :
    Mem (UtilTimer σ) :=
  linkPrev (linkNext (linkPrev (linkNext m l₁.getLast? (some x)) (some x) l₁.getLast?)
    (some x) l₂.head?) l₂.head? (some x)

theorem samePayload_spliced (m : Mem (UtilTimer σ)) (l₁ : List Addr) (x : Addr) (l₂ : List Addr) :
    SamePayload m (spliced m l₁ x l₂) :=
  ((((SamePayload.refl m).linkNext _ _).linkPrev _ _).linkNext _ _).linkPrev _ _

/-- A list object holds a timer spliced in after its first one, once `tail` has
been moved if there is nothing after it. -/
theorem Holds.spliced (h : Holds s (l₁ ++ l₂)) (hne : l₁ ≠ []) (hx : s.mem x = some t)
    (hxl : x ∉ l₁ ++ l₂) :
    Holds { mem := spliced s.mem l₁ x l₂, head := s.head,
            tail := if l₂ = [] then some x else s.tail } (l₁ ++ x :: l₂) := by
  have hnd : (l₁ ++ x :: l₂).Nodup :=
    List.perm_middle.nodup_iff.mpr (List.nodup_cons.mpr ⟨hxl, h.nodup⟩)
  have hseg := h.seg.insert hx hnd
  have hhead : headOr (l₁ ++ x :: l₂) none = s.head := by
    obtain ⟨b, l, rfl⟩ := List.exists_cons_of_ne_nil hne
    rw [h.seg.first]
    simp only [List.cons_append, headOr_cons]
  rw [headOr_none, lastOr_none, hhead] at hseg
  refine ⟨hseg, hnd, fun _ => ?_⟩
  cases l₂ with
  | nil => rw [if_pos rfl, List.getLast?_concat]
  | cons b l₂ =>
    rw [if_neg (List.cons_ne_nil b l₂), h.tail (by simp), List.getLast?_append,
      List.getLast?_append, List.getLast?_cons_cons]

/-- **The private `add_timer`**: the timer `x` goes into the part of the list after
the node `a`, in order. -/
theorem addTimerFrom_spec (h : Holds s (l₁ ++ a :: l₂)) (hx : s.mem x = some t)
    (hxl : x ∉ l₁ ++ a :: l₂) :
    ∃ s', addTimerFrom s (some x) (some a) = pure s' ∧
      Holds s' (l₁ ++ a :: insertSorted s.mem x l₂) ∧ SamePayload s.mem s'.mem := by
  obtain ⟨_, -, -, h₀, hh, -, hl₂⟩ := seg_append.mp h.seg
  change Seg s.mem (some a) h₀.next l₂ none at hl₂
  rw [addTimerFrom, Mem.read_some hh, pure_bind, insertPos_spec hx hl₂, pure_bind,
    insertSorted, List.orderedInsert_eq_take_drop]
  -- the loop has split `l₂` into `k₁` and `k₂`, and all of `pre` is before the new timer
  generalize hk₁ : (l₂.takeWhile fun b => decide ¬expireAt s.mem x ≤ expireAt s.mem b) = k₁
  generalize hk₂ : (l₂.dropWhile fun b => decide ¬expireAt s.mem x ≤ expireAt s.mem b) = k₂
  have hk : k₁ ++ k₂ = l₂ := by rw [← hk₁, ← hk₂, List.takeWhile_append_dropWhile]
  obtain ⟨pre, hpre⟩ : ∃ pre, pre = l₁ ++ a :: k₁ := ⟨_, rfl⟩
  have hne : pre ≠ [] := by simp [hpre]
  have hl : l₁ ++ a :: l₂ = pre ++ k₂ := by simp [hpre, ← hk]
  have hl' : l₁ ++ a :: (k₁ ++ x :: k₂) = pre ++ x :: k₂ := by simp [hpre]
  have hlast : lastOr (some a) k₁ = pre.getLast? := by
    rw [hpre, ← lastOr_none, lastOr_append, lastOr_cons]
  rw [hl] at h hxl
  rw [hl', hlast]
  have hprev : Alive s.mem pre.getLast? := by
    rw [List.getLast?_eq_some_getLast hne]
    obtain ⟨n, hn⟩ := h.seg.alive (List.mem_append_left k₂ (List.getLast_mem hne))
    exact alive_some hn
  have hxa : Alive s.mem (some x) := alive_some hx
  have hholds := h.spliced hne hx hxl
  simp only [hprev.modify_setNext, (hxa.linkNext _ _).modify_setPrev,
    ((hxa.linkNext _ _).linkPrev _ _).modify_setNext, pure_bind]
  cases k₂ with
  | nil => exact ⟨_, if_neg (by simp), hholds, samePayload_spliced s.mem pre x []⟩
  | cons b k₂ =>
    have hb : Alive s.mem (some b) := by
      obtain ⟨n, hn⟩ := h.seg.alive (a := b) (by simp)
      exact alive_some hn
    rw [if_pos (by simp), List.head?_cons,
      (((hb.linkNext _ _).linkPrev _ _).linkNext _ _).modify_setPrev, pure_bind]
    exact ⟨_, rfl, hholds, samePayload_spliced s.mem pre x (b :: k₂)⟩

/-- **The representation with its order**. -/
structure Ordered (s : SortedTimerList σ) (l : List Addr) : Prop extends Holds s l where
  ascending : Ascending s.mem l

/-- **`add_timer`** inserts a fresh timer in order. -/
theorem addTimer_spec (h : Ordered s l) (hx : s.mem x = some t) (hpv : t.prev = none)
    (hnx : t.next = none) (hxl : x ∉ l) :
    ∃ s' l', addTimer s (some x) = pure s' ∧ Ordered s' l' ∧ l'.Perm (x :: l) ∧
      SamePayload s.mem s'.mem := by
  rw [addTimer, if_neg (by simp)]
  cases l with
  | nil =>
    rw [if_pos (show s.head = none from h.head)]
    refine ⟨_, [x], rfl, ⟨⟨?_, List.nodup_singleton x, fun _ => rfl⟩, ?_⟩, .refl _, .refl _⟩
    · exact ⟨rfl, t, hx, hpv, hnx⟩
    · exact List.pairwise_singleton _ _
  | cons a l =>
    have hhead : s.head = some a := h.head
    obtain ⟨-, u, hu, -, -⟩ := h.seg
    rw [hhead, if_neg (by simp), Mem.read_some hx, pure_bind, Mem.read_some hu, pure_bind]
    by_cases hlt : t.expire < u.expire
    · -- in front of the list
      rw [if_pos hlt, (alive_some hx).modify_setNext, pure_bind,
        ((alive_some hu).linkNext _ _).modify_setPrev, pure_bind]
      have hnd : (x :: a :: l).Nodup := List.nodup_cons.mpr ⟨hxl, h.nodup⟩
      have hsame : SamePayload s.mem
          (linkPrev (linkNext s.mem (some x) (some a)) (some a) (some x)) :=
        ((SamePayload.refl s.mem).linkNext _ _).linkPrev _ _
      have hseg := h.seg.pushFront hx hpv hnd
      refine ⟨_, x :: a :: l, rfl, ⟨⟨hseg, hnd, fun _ => ?_⟩, hsame.ascending ?_⟩, .refl _, hsame⟩
      · rw [List.getLast?_cons_cons]
        exact h.tail (List.cons_ne_nil a l)
      · refine List.pairwise_cons.mpr ⟨fun b hb => ?_, h.ascending⟩
        rw [expireAt_some hx]
        refine hlt.le.trans ?_
        rw [← expireAt_some hu]
        rcases List.mem_cons.mp hb with rfl | hb
        · exact le_refl _
        · exact (List.pairwise_cons.mp h.ascending).1 b hb
    · -- after the first timer
      rw [if_neg hlt]
      obtain ⟨s', hs', hholds, hsame⟩ := addTimerFrom_spec
        (show Holds s ([] ++ a :: l) from h.toHolds) hx hxl
      have hperm := (insertSorted_perm s.mem x l).cons a
      refine ⟨s', _, hs', ⟨hholds, hsame.ascending ?_⟩, hperm.trans (.swap x a l), hsame⟩
      refine Ascending.insertAfter (show Ascending s.mem ([] ++ a :: l) from h.ascending) ?_
      rw [expireAt_some hx, expireAt_some hu]
      exact not_lt.mp hlt

/-! ### Removal -/

theorem samePayload_detached (m : Mem (UtilTimer σ)) (l₁ l₂ : List Addr) :
    SamePayload m (detached m l₁ l₂) :=
  detached_map (fun _ _ => rfl) (fun _ _ => rfl) m l₁ l₂

/-- A list object holds what is left after a node has been linked around, once its
two ends have been moved. -/
theorem Holds.detached (h : Holds s (l₁ ++ x :: l₂)) (tail : Ptr)
    (htail : l₁ ++ l₂ ≠ [] → tail = (l₁ ++ l₂).getLast?) :
    Holds { mem := Cpp.detached s.mem l₁ l₂, head := (l₁ ++ l₂).head?, tail := tail } (l₁ ++ l₂) :=
  ⟨h.seg.detach h.nodup, (List.nodup_cons.mp (List.perm_middle.nodup_iff.mp h.nodup)).2, htail⟩

/-- The timer at a position of a list, and its two neighbours. -/
theorem Holds.node (h : Holds s (l₁ ++ x :: l₂)) :
    ∃ t, s.mem x = some t ∧ t.prev = l₁.getLast? ∧ t.next = l₂.head? :=
  h.seg.neighbours

/-- A timer occurs once on a list. -/
theorem Holds.notMem (h : Holds s (l₁ ++ x :: l₂)) : x ∉ l₁ ++ l₂ := notMem_of_nodup h.nodup

/-- Clearing a timer that is not on the list keeps the list. -/
theorem Holds.clear (h : Holds s l) (hx : x ∉ l) : Holds { s with mem := s.mem.clear x } l :=
  ⟨h.seg.clear_frame hx, h.nodup, h.tail⟩

/-- A write to the `next` of a timer that is not on the list keeps the list. -/
theorem Holds.linkNext (h : Holds s l) (hx : x ∉ l) (q : Ptr) :
    Holds { s with mem := Cpp.linkNext s.mem (some x) q } l := by
  refine ⟨h.seg.linkNext_frame (r := some x) (fun b hb hxb => ?_) q, h.nodup, h.tail⟩
  obtain rfl : x = b := Option.some.inj hxb
  exact hx hb

/-- A timer is the `head` exactly when there is none before it. -/
theorem Holds.head_iff (h : Holds s (l₁ ++ x :: l₂)) : some x = s.head ↔ l₁ = [] :=
  h.seg.eq_head_iff h.nodup

/-- A timer is the `tail` exactly when there is none after it. -/
theorem Holds.tail_iff (h : Holds s (l₁ ++ x :: l₂)) : some x = s.tail ↔ l₂ = [] := by
  rw [h.tail (by simp)]
  rcases List.eq_nil_or_concat l₂ with rfl | ⟨l₂, b, rfl⟩
  · rw [List.getLast?_concat]
    simp
  · have hbx : x ≠ b := by
      rintro rfl
      exact h.notMem (by simp)
    rw [List.concat_eq_append, ← List.cons_append, ← List.append_assoc, List.getLast?_concat]
    simp [hbx]

/-- The order after a timer has been deleted. -/
theorem Ascending.removed (h : Ascending m (l₁ ++ x :: l₂)) (hx : x ∉ l₁ ++ l₂)
    (hm : SamePayload (m.clear x) m') : Ascending m' (l₁ ++ l₂) := by
  refine hm.ascending ?_
  have hsub : Ascending m (l₁ ++ l₂) :=
    h.sublist ((List.sublist_cons_self x l₂).append_left l₁)
  refine hsub.imp_of_mem fun {a b} ha hb hab => ?_
  rwa [expireAt, expireAt, Mem.clear_of_ne m (ne_of_mem_of_not_mem ha hx),
    Mem.clear_of_ne m (ne_of_mem_of_not_mem hb hx)]

/-- **`del_timer`** removes and deletes a timer of the list. -/
theorem delTimer_spec (h : Holds s (l₁ ++ x :: l₂)) :
    ∃ s', delTimer s (some x) = pure s' ∧ Holds s' (l₁ ++ l₂) ∧
      SamePayload (s.mem.clear x) s'.mem := by
  obtain ⟨t, ht, hpv, hnx⟩ := h.node
  have hsame := (samePayload_detached s.mem l₁ l₂).clear x
  have hdel : (detached s.mem l₁ l₂).delete (some x) = pure ((detached s.mem l₁ l₂).clear x) :=
    Mem.delete_some (detached_self h.nodup ht)
  rw [delTimer, if_neg (by simp)]
  simp only [h.head_iff, h.tail_iff]
  by_cases h₁ : l₁ = []
  · subst h₁
    cases l₂ with
    | nil =>
      -- the only timer
      rw [if_pos ⟨rfl, rfl⟩, show s.mem = detached s.mem [] [] from rfl, hdel, pure_bind]
      exact ⟨_, rfl, (h.detached none (by simp)).clear h.notMem, hsame⟩
    | cons b l₂ =>
      -- the first one
      have hb : Alive s.mem (some b) := h.seg.alive_mem (by simp)
      have hdet : linkPrev s.mem (some b) none = detached s.mem [] (b :: l₂) := rfl
      rw [if_neg (by simp), if_pos rfl, show s.head = some x from h.head, Mem.read_some ht,
        pure_bind, hnx, List.head?_cons, hb.modify_setPrev, pure_bind, hdet, hdel, pure_bind]
      refine ⟨_, rfl, (h.detached s.tail fun _ => ?_).clear h.notMem, hsame⟩
      rw [h.tail (by simp), List.nil_append, List.nil_append, List.getLast?_cons_cons]
  · have hlast : Alive s.mem l₁.getLast? := h.seg.alive_getLast h₁
    rw [if_neg (by simp [h₁]), if_neg h₁]
    cases l₂ with
    | nil =>
      -- the last one
      have htail : s.tail = some x := (h.tail_iff.mpr rfl).symm
      have hdet : linkNext s.mem l₁.getLast? none = detached s.mem l₁ [] := rfl
      rw [if_pos rfl, htail, Mem.read_some ht, pure_bind, hpv, hlast.modify_setNext, pure_bind,
        hdet, hdel, pure_bind]
      refine ⟨_, rfl, ?_, hsame⟩
      have hholds := (h.detached l₁.getLast? (by simp)).clear h.notMem
      have hhead : s.head = (l₁ ++ []).head? := by
        rw [h.head, List.append_nil, List.head?_append_of_ne_nil _ h₁]
      rwa [← hhead] at hholds
    | cons b l₂ =>
      -- one in between
      have hb : Alive s.mem (some b) := h.seg.alive_mem (by simp)
      have hdet : linkPrev (linkNext s.mem l₁.getLast? (some b)) (some b) l₁.getLast? =
          detached s.mem l₁ (b :: l₂) := rfl
      rw [if_neg (by simp), Mem.read_some ht, pure_bind, hpv, hnx, List.head?_cons,
        hlast.modify_setNext, pure_bind, Mem.read_some (linkNext_neighbour h.nodup ht _),
        pure_bind, hpv, hnx, List.head?_cons, (hb.linkNext _ _).modify_setPrev, pure_bind, hdet,
        hdel, pure_bind]
      refine ⟨_, rfl, ?_, hsame⟩
      have hholds := (h.detached s.tail fun _ => ?_).clear h.notMem
      · have hhead : s.head = (l₁ ++ b :: l₂).head? := by
          rw [h.head, List.head?_append_of_ne_nil _ h₁, List.head?_append_of_ne_nil _ h₁]
        rwa [← hhead] at hholds
      · rw [h.tail (by simp), List.getLast?_append, List.getLast?_append, List.getLast?_cons_cons]

/-! ### Adjustment -/

/-- A timer between those that do not expire later and those that do not expire
earlier keeps the order. -/
theorem Ascending.insertBetween (h : Ascending m (l₁ ++ l₂))
    (h₁ : ∀ b ∈ l₁, expireAt m b ≤ expireAt m x) (h₂ : ∀ b ∈ l₂, expireAt m x ≤ expireAt m b) :
    Ascending m (l₁ ++ x :: l₂) := by
  obtain ⟨hl₁, hl₂, h₁₂⟩ := List.pairwise_append.mp h
  refine List.pairwise_append.mpr ⟨hl₁, List.pairwise_cons.mpr ⟨h₂, hl₂⟩, fun b hb c hc => ?_⟩
  rcases List.mem_cons.mp hc with rfl | hc
  · exact h₁ b hb
  · exact h₁₂ b hb c hc

/-- **`adjust_timer`** on a list that is in order but for the timer `x`, whose
`expire` may have been raised: the timer moves to its place. -/
theorem adjustTimer_spec (h : Holds s (l₁ ++ x :: l₂)) (hasc : Ascending s.mem (l₁ ++ l₂))
    (hle : ∀ b ∈ l₁, expireAt s.mem b ≤ expireAt s.mem x) :
    ∃ s' l', adjustTimer s (some x) = pure s' ∧ Ordered s' l' ∧ l'.Perm (l₁ ++ x :: l₂) ∧
      SamePayload s.mem s'.mem := by
  obtain ⟨t, ht, hpv, hnx⟩ := h.node
  rw [adjustTimer, if_neg (by simp), Mem.read_some ht, pure_bind, hnx]
  cases l₂ with
  | nil =>
    -- the last timer stays
    refine ⟨s, _, rfl, ⟨h, hasc.insertBetween hle (by simp)⟩, .refl _, .refl _⟩
  | cons b l₂ =>
    obtain ⟨u, hu⟩ := h.seg.alive (a := b) (by simp)
    have hb : Alive s.mem (some b) := alive_some hu
    have hxa : Alive s.mem (some x) := alive_some ht
    simp only [List.head?_cons, reduceCtorEq, if_false, Mem.read_some hu, pure_bind]
    by_cases hlt : t.expire < u.expire
    · -- the next timer still expires later
      rw [if_pos (decide_eq_true hlt)]
      refine ⟨s, _, rfl, ⟨h, hasc.insertBetween hle fun c hc => ?_⟩, .refl _, .refl _⟩
      have hxb : expireAt s.mem x ≤ expireAt s.mem b := by
        rw [expireAt_some ht, expireAt_some hu]
        exact hlt.le
      rcases List.mem_cons.mp hc with rfl | hc
      · exact hxb
      · obtain ⟨-, hl₂, -⟩ := List.pairwise_append.mp hasc
        exact hxb.trans ((List.pairwise_cons.mp hl₂).1 c hc)
    · -- the timer is taken out and inserted after the next one
      have hbx : expireAt s.mem b ≤ expireAt s.mem x := by
        rw [expireAt_some ht, expireAt_some hu]
        exact not_lt.mp hlt
      have htail : l₁ ++ b :: l₂ ≠ [] → s.tail = (l₁ ++ b :: l₂).getLast? := fun _ => by
        rw [h.tail (by simp), List.getLast?_append, List.getLast?_append, List.getLast?_cons_cons]
      have hholds := h.detached s.tail htail
      have hself := detached_self h.nodup ht
      have hdet := samePayload_detached s.mem l₁ (b :: l₂)
      -- what the insertion ends with, whatever it starts from
      have hdone : ∀ m t', SamePayload s.mem m → m x = some t' →
          Holds { mem := m, head := (l₁ ++ b :: l₂).head?, tail := s.tail } (l₁ ++ b :: l₂) →
          ∃ s' l', addTimerFrom { mem := m, head := (l₁ ++ b :: l₂).head?, tail := s.tail } (some x)
              (some b) = pure s' ∧ Ordered s' l' ∧ l'.Perm (l₁ ++ x :: b :: l₂) ∧
            SamePayload s.mem s'.mem := by
        intro m t' hm hmx hml
        obtain ⟨s', hs', hholds', hsame⟩ := addTimerFrom_spec hml hmx h.notMem
        refine ⟨s', _, hs', ⟨hholds', hsame.ascending ?_⟩, ?_, hm.trans hsame⟩
        · refine Ascending.insertAfter (hm.ascending hasc) ?_
          rwa [hm.expireAt_eq]
        · exact (((insertSorted_perm m x l₂).cons b).trans (.swap x b l₂)).append_left l₁
      rw [if_neg (by simpa using hlt)]
      simp only [h.head_iff]
      by_cases h₁ : l₁ = []
      · subst h₁
        have hm : linkPrev s.mem (some b) none = detached s.mem [] (b :: l₂) := rfl
        rw [if_pos rfl, show s.head = some x from h.head, Mem.read_some ht, pure_bind, hnx,
          List.head?_cons, hb.modify_setPrev, pure_bind, (hxa.linkPrev _ _).modify_setNext,
          pure_bind, hm]
        exact hdone _ _ (hdet.linkNext _ _) (linkNext_self hself none)
          (hholds.linkNext h.notMem none)
      · have hlast : Alive s.mem l₁.getLast? := h.seg.alive_getLast h₁
        have hm : linkPrev (linkNext s.mem l₁.getLast? (some b)) (some b) l₁.getLast? =
            detached s.mem l₁ (b :: l₂) := rfl
        have hhead : s.head = (l₁ ++ b :: l₂).head? := by
          rw [h.head, List.head?_append_of_ne_nil _ h₁, List.head?_append_of_ne_nil _ h₁]
        rw [if_neg h₁, hpv, hlast.modify_setNext, pure_bind,
          Mem.read_some (linkNext_neighbour h.nodup ht _), pure_bind, hpv, hnx, List.head?_cons,
          (hb.linkNext _ _).modify_setPrev, pure_bind, hm, Mem.read_some hself, pure_bind, hnx,
          List.head?_cons, hhead]
        exact hdone _ _ hdet hself hholds

/-! ### A list that holds all the timers there are -/

/-- **The list of all timers**: it is ordered, and no other timer is alive. -/
structure Owned (s : SortedTimerList σ) (l : List Addr) : Prop extends Ordered s l where
  own : ∀ a t, s.mem a = some t → a ∈ l

theorem owned_empty : Owned (.empty : SortedTimerList σ) [] :=
  ⟨⟨⟨rfl, List.nodup_nil, fun h => absurd rfl h⟩, .nil⟩, fun _ _ h => by cases h⟩

/-- The alive timers are the same in two memories with the same payloads. -/
theorem SamePayload.own (hm : SamePayload m m') (hown : ∀ a t, m a = .some t → a ∈ l) :
    ∀ a t, m' a = .some t → a ∈ l := by
  intro a t ha
  have hne : m a ≠ none := by
    rw [Ne, ← hm.alive_iff, ha]
    simp
  obtain ⟨u, hu⟩ := Option.ne_none_iff_exists'.mp hne
  exact hown a u hu

/-- A new timer does not disturb the list. -/
theorem Ordered.set_fresh (h : Ordered s l) (hx : x ∉ l) (t : UtilTimer σ) :
    Ordered { s with mem := s.mem.set x t } l := by
  refine ⟨⟨h.seg.congr fun a ha => Mem.set_of_ne _ _ (ne_of_mem_of_not_mem ha hx), h.nodup,
    h.tail⟩, h.ascending.imp_of_mem fun {a b} ha hb hab => ?_⟩
  change expireAt (s.mem.set x t) a ≤ expireAt (s.mem.set x t) b
  rwa [expireAt, expireAt, Mem.set_of_ne _ _ (ne_of_mem_of_not_mem ha hx),
    Mem.set_of_ne _ _ (ne_of_mem_of_not_mem hb hx)]

/-- **A new timer is created and added.** -/
theorem Owned.addTimer (h : Owned s l) (hx : s.mem x = none) (userData : ℕ) (expire : ℤ)
    (cbFunc : ℕ → σ → σ) :
    ∃ s' l', SortedTimerList.addTimer
        { s with mem := s.mem.set x (.create userData expire cbFunc) } (some x) = pure s' ∧
      Owned s' l' ∧ l'.Perm (x :: l) ∧
      SamePayload (s.mem.set x (.create userData expire cbFunc)) s'.mem := by
  have hxl : x ∉ l := by
    intro hmem
    obtain ⟨t, ht⟩ := h.seg.alive hmem
    rw [hx] at ht
    cases ht
  obtain ⟨s', l', hs', hord, hperm, hsame⟩ := addTimer_spec
    (h.toOrdered.set_fresh hxl (.create userData expire cbFunc)) (Mem.set_self _ x _) rfl rfl hxl
  refine ⟨s', l', hs', ⟨hord, hsame.own fun a t ha => ?_⟩, hperm, hsame⟩
  rw [hperm.mem_iff]
  by_cases hax : a = x
  · rw [hax]
    exact List.mem_cons_self
  · change s.mem.set x _ a = some t at ha
    rw [Mem.set_of_ne _ _ hax] at ha
    exact List.mem_cons_of_mem x (h.own a t ha)

/-- **The `expire` of a timer is raised and the timer adjusted.** -/
theorem Owned.adjustTimer (h : Owned s l) (hxl : x ∈ l) (hx : s.mem x = some t) {expire : ℤ}
    (hle : t.expire ≤ expire) :
    ∃ s' l', SortedTimerList.adjustTimer
        { s with mem := s.mem.set x { t with expire := expire } } (some x) = pure s' ∧
      Owned s' l' ∧ l'.Perm l ∧ SamePayload (s.mem.set x { t with expire := expire }) s'.mem := by
  obtain ⟨l₁, l₂, rfl⟩ := List.append_of_mem hxl
  have hnot := h.notMem
  obtain ⟨m, hm⟩ : ∃ m, m = s.mem.set x { t with expire := expire } := ⟨_, rfl⟩
  have hself : expireAt m x = expire := by rw [hm, expireAt_some (Mem.set_self _ x _)]
  -- without the timer that is put off, the list is as sorted as before
  have hother : ∀ b ∈ l₁ ++ l₂, expireAt m b = expireAt s.mem b := fun b hb => by
    rw [hm, expireAt, expireAt, Mem.set_of_ne _ _ (ne_of_mem_of_not_mem hb hnot)]
  have hholds : Holds { s with mem := m } (l₁ ++ x :: l₂) := by
    refine ⟨?_, h.nodup, h.tail⟩
    rw [hm]
    exact h.seg.set hx rfl rfl
  have hasc : Ascending m (l₁ ++ l₂) := by
    have hsub : Ascending s.mem (l₁ ++ l₂) :=
      h.ascending.sublist ((List.sublist_cons_self x l₂).append_left l₁)
    refine hsub.imp_of_mem fun {a b} ha hb hab => ?_
    rwa [hother a ha, hother b hb]
  have hbefore : ∀ b ∈ l₁, expireAt m b ≤ expireAt m x := by
    intro b hb
    rw [hself, hother b (List.mem_append_left l₂ hb)]
    obtain ⟨-, -, h₁₂⟩ := List.pairwise_append.mp h.ascending
    have hbx := h₁₂ b hb x List.mem_cons_self
    rw [expireAt_some hx] at hbx
    exact hbx.trans hle
  obtain ⟨s', l', hs', hord, hperm, hsame⟩ := adjustTimer_spec hholds hasc hbefore
  rw [← hm]
  refine ⟨s', l', hs', ⟨hord, hsame.own fun a u ha => ?_⟩, hperm, hsame⟩
  rw [hperm.mem_iff]
  -- every timer of the memory is on the list
  by_cases hax : a = x
  · rw [hax]
    exact hxl
  · change m a = some u at ha
    rw [hm, Mem.set_of_ne _ _ hax] at ha
    exact h.own a u ha

/-- **A timer is removed and deleted.** -/
theorem Owned.delTimer (h : Owned s l) (hxl : x ∈ l) :
    ∃ s' l', SortedTimerList.delTimer s (some x) = pure s' ∧ Owned s' l' ∧
      l.Perm (x :: l') ∧ SamePayload (s.mem.clear x) s'.mem := by
  obtain ⟨l₁, l₂, rfl⟩ := List.append_of_mem hxl
  obtain ⟨s', hs', hholds, hsame⟩ := delTimer_spec h.toHolds
  refine ⟨s', l₁ ++ l₂, hs', ⟨⟨hholds, h.ascending.removed h.notMem hsame⟩,
    hsame.own fun a t ha => ?_⟩, List.perm_middle, hsame⟩
  have hax : a ≠ x := by
    rintro rfl
    rw [Mem.clear_self] at ha
    cases ha
  rw [Mem.clear_of_ne _ hax] at ha
  have hmem := List.perm_middle.mem_iff.mp (h.own a t ha)
  exact (List.mem_cons.mp hmem).resolve_left hax

/-! ### The tick -/

/-- The callback of the timer at `a`, run in the environment. -/
def call (m : Mem (UtilTimer σ)) (env : σ) (a : Addr) : σ :=
  match m a with
  | none => env
  | some t => t.cbFunc t.userData env

theorem call_some (h : m a = some t) (env : σ) : call m env a = t.cbFunc t.userData env := by
  simp only [call, h]

/-- Callbacks depend on the payloads of their timers only. -/
theorem foldl_call_congr (hm : ∀ a ∈ l, (m' a).map UtilTimer.payload = (m a).map UtilTimer.payload)
    (env : σ) : l.foldl (call m') env = l.foldl (call m) env := by
  induction l generalizing env with
  | nil => rfl
  | cons a l ih =>
    have ha : call m' env a = call m env a := by
      have := congrArg (Option.map fun y : ℕ × ℤ × (ℕ → σ → σ) => y.2.2 y.1 env)
        (hm a List.mem_cons_self)
      rw [Option.map_map, Option.map_map] at this
      rw [call, call]
      cases h' : m' a <;> cases h : m a <;> rw [h', h] at this <;>
        simp_all [UtilTimer.payload]
    rw [List.foldl_cons, List.foldl_cons, ha]
    exact ih (fun b hb => hm b (List.mem_cons_of_mem a hb)) _

theorem pending_set (m : Mem (UtilTimer σ)) (a : Addr) (t : UtilTimer σ) :
    pending (m.set a t) = (pending m).add a t.expire :=
  Pending.map_update_some m UtilTimer.expire a t

theorem pending_clear (m : Mem (UtilTimer σ)) (a : Addr) :
    pending (m.clear a) = (pending m).remove a :=
  Pending.map_update_none m UtilTimer.expire a

/-- **What a tick leaves and returns**: the due timers have been fired, in order, and
the others are on the list. -/
structure Ticked (cur : ℤ) (s : SortedTimerList σ) (env : σ) (l : List Addr)
    (s' : SortedTimerList σ) (env' : σ) (fired l' : List Addr) : Prop where
  owned : Owned s' l'
  split : l = fired ++ l'
  env_eq : env' = fired.foldl (call s.mem) env
  expires : (pending s.mem).Expires cur fired (pending s'.mem)
  payload : ∀ a ∈ l', (s'.mem a).map UtilTimer.payload = (s.mem a).map UtilTimer.payload

/-- A list without its first timer, as an iteration of `tick` leaves it: `tail` is
not touched, even when nothing is left. -/
theorem Ordered.popFront (h : Ordered s (a :: l)) :
    Ordered { mem := (detached s.mem [] l).clear a, head := l.head?, tail := s.tail } l := by
  have hl : Holds s ([] ++ a :: l) := h.toHolds
  have hasc : Ascending s.mem ([] ++ a :: l) := h.ascending
  refine ⟨(hl.detached s.tail fun hne => ?_).clear hl.notMem,
    hasc.removed hl.notMem ((samePayload_detached s.mem [] l).clear a)⟩
  change s.tail = l.getLast?
  rw [h.tail (by simp)]
  obtain ⟨b, l', rfl⟩ := List.exists_cons_of_ne_nil hne
  rw [List.getLast?_cons_cons]

/-- The timers that a tick leaves are those it has not fired. -/
theorem Ticked.filter_notMem {cur : ℤ} {env env' : σ} {fired l' : List Addr}
    (h : Ticked cur s env l s' env' fired l') (hnd : l.Nodup) : l.filter (· ∉ fired) = l' := by
  obtain ⟨-, -, hdis⟩ := List.nodup_append.mp (h.split ▸ hnd)
  rw [h.split, List.filter_append, List.filter_eq_nil_iff.mpr (by simp),
    List.filter_eq_self.mpr, List.nil_append]
  intro b hb
  exact decide_eq_true fun hbf => hdis b hbf b hb rfl

/-- An iteration of `tick` on a timer that is due: it is fired and deleted, and the loop goes on
with the others. -/
theorem tickLoop_due {cur : ℤ} (h : Owned s (a :: l)) (ht : s.mem a = some t)
    (hdue : ¬ cur < t.expire) (env : σ) :
    ∃ s₁, Owned s₁ l ∧ s₁.tail = s.tail ∧ SamePayload (s.mem.clear a) s₁.mem ∧
      tickLoop cur s env s.head = (do
        let (s', env', fired) ← tickLoop cur s₁ (t.cbFunc t.userData env) s₁.head
        pure (s', env', a :: fired)) := by
  have hhead : s.head = some a := h.head
  have hl : Holds s ([] ++ a :: l) := h.toHolds
  obtain ⟨u, hu, -, hnx⟩ := hl.node
  obtain rfl := Option.some.inj (ht.symm.trans hu)
  have hmod : (if t.next ≠ none then s.mem.modify t.next (setPrev none) else pure s.mem) =
      pure (detached s.mem [] l) := by
    rw [hnx]
    exact modify_head (fun b hb =>
      h.seg.alive_mem (List.mem_cons_of_mem a (List.mem_of_head? hb))) none
  have hself := detached_self hl.nodup ht
  have hsame : SamePayload (s.mem.clear a) ((detached s.mem [] l).clear a) :=
    (samePayload_detached s.mem [] l).clear a
  refine ⟨{ mem := (detached s.mem [] l).clear a, head := l.head?, tail := s.tail },
    ⟨h.toOrdered.popFront, hsame.own fun b u hu => ?_⟩, rfl, hsame, ?_⟩
  · have hba : b ≠ a := by
      rintro rfl
      rw [Mem.clear_self] at hu
      cases hu
    rw [Mem.clear_of_ne _ hba] at hu
    exact (List.mem_cons.mp (h.own b u hu)).resolve_left hba
  · rw [hhead, tickLoop, Mem.read_some ht, pure_bind, if_neg hdue]
    dsimp only
    rw [hmod, pure_bind, Mem.delete_some hself, pure_bind, hnx]

/-- An iteration of `tick` on a timer that is not due: the loop ends. -/
theorem tickLoop_stop {cur : ℤ} (h : Owned s (a :: l)) (ht : s.mem a = some t)
    (hdue : cur < t.expire) (env : σ) : tickLoop cur s env s.head = pure (s, env, []) := by
  rw [h.head, List.head?_cons, tickLoop, Mem.read_some ht, pure_bind, if_pos hdue]

theorem tickLoop_nil (cur : ℤ) (h : Owned s []) (env : σ) :
    tickLoop cur s env s.head = pure (s, env, []) := by
  rw [h.head, List.head?_nil, tickLoop]

/-- The first timer has the least `expire`. -/
theorem Owned.first_le (h : Owned s (a :: l)) (ht : s.mem a = some t) {b : Addr} {u : ℤ}
    (hu : pending s.mem b = some u) : t.expire ≤ u := by
  obtain ⟨v, hv, rfl⟩ := Option.map_eq_some_iff.mp hu
  rcases List.mem_cons.mp (h.own b v hv) with rfl | hb
  · rw [Option.some.inj (ht.symm.trans hv)]
  · have hle := (List.pairwise_cons.mp h.ascending).1 b hb
    rwa [expireAt_some ht, expireAt_some hv] at hle

/-- **The loop of `tick`** fires the due timers of a list that holds all the timers
there are. -/
theorem tickLoop_spec (cur : ℤ) (h : Owned s l) (env : σ) :
    ∃ s' env' fired l', tickLoop cur s env s.head = pure (s', env', fired) ∧
      Ticked cur s env l s' env' fired l' := by
  induction l generalizing s env with
  | nil =>
    refine ⟨s, env, [], [], tickLoop_nil cur h env, h, rfl, rfl,
      Pending.expires_stop fun a u hu => ?_, by simp⟩
    obtain ⟨t, ht, -⟩ := Option.map_eq_some_iff.mp hu
    exact absurd (h.own a t ht) (by simp)
  | cons a l ih =>
    have hl : Holds s ([] ++ a :: l) := h.toHolds
    obtain ⟨t, ht, -, -⟩ := hl.node
    have hat : pending s.mem a = some t.expire := by rw [pending, ht, Option.map_some]
    have hnot : a ∉ l := hl.notMem
    by_cases hdue : cur < t.expire
    · -- the first timer is not due, and so no other one
      exact ⟨s, env, [], a :: l, tickLoop_stop h ht hdue env, h, rfl, rfl,
        Pending.expires_stop fun b u hu => hdue.trans_le (h.first_le ht hu), fun _ _ => rfl⟩
    · obtain ⟨s₁, hown, -, hsame, hstep⟩ := tickLoop_due h ht hdue env
      have hpay : ∀ b ∈ l, (s₁.mem b).map UtilTimer.payload = (s.mem b).map UtilTimer.payload := by
        intro b hb
        rw [hsame b, Mem.clear_of_ne _ (ne_of_mem_of_not_mem hb hnot)]
      obtain ⟨s', env', fired, l', hcode, hT⟩ := ih hown (t.cbFunc t.userData env)
      have hfired : ∀ b ∈ fired, b ∈ l := fun b hb => by
        rw [hT.split]
        exact List.mem_append_left l' hb
      refine ⟨s', env', a :: fired, l', ?_, hT.owned, ?_, ?_, ?_, fun b hb => ?_⟩
      · rw [hstep, hcode, pure_bind]
      · rw [hT.split, List.cons_append]
      · rw [hT.env_eq, List.foldl_cons, call_some ht]
        exact foldl_call_congr (fun b hb => hpay b (hfired b hb)) _
      · refine Pending.Expires.cons hat (not_lt.mp hdue) (fun _ _ hu => h.first_le ht hu) ?_
        rw [← pending_clear, ← hsame.pending_eq]
        exact hT.expires
      · have hbl : b ∈ l := by
          rw [hT.split]
          exact List.mem_append_right fired hb
        rw [hT.payload b hb, hpay b hbl]

/-- The loop leaves `tail` as it is, also where it deletes the last timer. -/
theorem tickLoop_tail {cur : ℤ} {env : σ} {r : SortedTimerList σ × σ × List Addr} (h : Owned s l)
    (hr : tickLoop cur s env s.head = pure r) : r.1.tail = s.tail := by
  induction l generalizing s env r with
  | nil =>
    obtain rfl := Exec.pure_unique (tickLoop_nil cur h env) hr
    rfl
  | cons a l ih =>
    have hl : Holds s ([] ++ a :: l) := h.toHolds
    obtain ⟨t, ht, -, -⟩ := hl.node
    by_cases hdue : cur < t.expire
    · obtain rfl := Exec.pure_unique (tickLoop_stop h ht hdue env) hr
      rfl
    · obtain ⟨s₁, hown, htail, -, hstep⟩ := tickLoop_due h ht hdue env
      rw [hstep] at hr
      obtain ⟨r', hr', hr⟩ := Exec.bind_eq_pure.mp hr
      obtain rfl := Exec.pure_inj.mp hr
      exact (ih hown hr').trans htail

/-- **`tick`** fires and deletes the due timers, in order. -/
theorem tick_spec (cur : ℤ) (h : Owned s l) (env : σ) :
    ∃ s' env' fired l', tick cur s env = pure (s', env', fired) ∧
      Ticked cur s env l s' env' fired l' := by
  obtain ⟨s', env', fired, l', hcode, hT⟩ := tickLoop_spec cur h env
  refine ⟨s', env', fired, l', ?_, hT⟩
  rw [tick]
  split
  · rename_i hhead
    rw [hhead, tickLoop] at hcode
    exact hcode
  · exact hcode

end SortedTimerList

end Candcpp
