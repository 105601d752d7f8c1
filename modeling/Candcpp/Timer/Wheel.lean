import Candcpp.Cpp.Dll
import Candcpp.Timer.Pending

/-!
# The time wheel

The class `time_wheel` of `time_wheel_timer.h`: `N` slots, each of them an unordered
doubly linked list of timers. A tick walks along the list of the current slot, in
which it fires the timers that have no rotation left and takes one rotation off
the others, and then moves on to the next slot.

The functions are those of the source, over `Candcpp.Cpp.Exec`. An `int` is an integer
of `ℤ`, divided towards zero as in the source; no computation leaves the range of
`int`. Reading or writing `slots` outside its bounds is a fault, and so is a call
through a callback pointer that nobody has set.

Two layers of facts connect the wheel with what it is for:

| what is stated | theorem |
|---|---|
| an operation changes one slot, and the others go on as they were | `Candcpp.TimeWheel.Holds.changeSlot` |
| what a tick does to the timers of the current slot | `Candcpp.TimeWheel.tickLoop_spec` |
| **a timer added with `ticks` to wait is due in `ticks` ticks** | `Candcpp.TimeWheel.due_create` |
| **a tick hands out what is due, and keeps the due times of the others** | `Candcpp.TimeWheel.tick_spec` |
-/

namespace Candcpp

open Cpp DLink

/-! ### The classes -/

/-- What a timer holds besides its two pointers. The constructor leaves `userData` and
`cbFunc` unset. -/
structure TwData (σ : Type) where
  userData : ℕ
  rotation : ℤ
  timeSlot : ℤ
  cbFunc : Option (ℕ → σ → σ)

/-- `class tw_timer`. -/
structure TwTimer (σ : Type) extends TwData σ where
  prev : Ptr
  next : Ptr

namespace TwTimer

variable {σ : Type}

/-- `tw_timer(rot, ts)`. -/
def create (rot ts : ℤ) : TwTimer σ where
  prev := none
  next := none
  userData := 0
  rotation := rot
  timeSlot := ts
  cbFunc := none

instance : DLink (TwTimer σ) where
  prev := TwTimer.prev
  next := TwTimer.next
  setPrev := fun p t => { t with prev := p }
  setNext := fun p t => { t with next := p }
  prev_setPrev := fun _ _ => rfl
  next_setPrev := fun _ _ => rfl
  prev_setNext := fun _ _ => rfl
  next_setNext := fun _ _ => rfl

/-- `timer->cb_func(timer->user_data)`. -/
def callback (t : TwTimer σ) (env : σ) : Exec σ :=
  match t.cbFunc with
  | none => throw .nullDeref
  | some f => pure (f t.userData env)

end TwTimer

/-- `class time_wheel`, together with the heap of the timers. -/
structure TimeWheel (σ : Type) where
  mem : Mem (TwTimer σ)
  slots : ℤ → Ptr
  curSlot : ℤ

namespace TimeWheel

variable {σ : Type}

/-- `N`, the number of slots. -/
def N : ℤ := 60

/-- `SI`, the slot interval. -/
def SI : ℤ := 1

/-- An index within the bounds of `slots`. -/
def IsSlot (i : ℤ) : Prop := 0 ≤ i ∧ i < N

instance (i : ℤ) : Decidable (IsSlot i) := inferInstanceAs (Decidable (_ ∧ _))

/-- `slots[i]`, read. -/
def slot (s : TimeWheel σ) (i : ℤ) : Exec Ptr :=
  if IsSlot i then pure (s.slots i) else throw .outOfRange

/-- `slots[i] = p`. -/
def setSlot (s : TimeWheel σ) (i : ℤ) (p : Ptr) : Exec (TimeWheel σ) :=
  if IsSlot i then pure { s with slots := Function.update s.slots i p } else throw .outOfRange

/-! ### The functions -/

/-- `time_wheel()`, on an empty heap. -/
def empty : TimeWheel σ where
  mem := fun _ => none
  slots := fun _ => none
  curSlot := 0

/-- The variable `ticks` of `add_timer`. -/
def ticksOf (timeout : ℤ) : ℤ := if timeout < SI then 1 else timeout.tdiv SI

/-- `add_timer(timeout)`, where `new` returns the address `timer`. -/
def addTimer (s : TimeWheel σ) (timer : Addr) (timeout : ℤ) : Exec (TimeWheel σ × Ptr) :=
  if timeout < 0 then pure (s, none)
  else do
    let ticks := ticksOf timeout
    let rotation := ticks.tdiv N
    let ts := (s.curSlot + ticks.tmod N).tmod N
    let s := { s with mem := s.mem.set timer (.create rotation ts) }
    let head ← s.slot ts
    if head = none then
      let s ← s.setSlot ts (some timer)
      pure (s, some timer)
    else
      let m ← s.mem.modify (some timer) (setNext head)
      let m ← m.modify head (setPrev (some timer))
      let s ← { s with mem := m }.setSlot ts (some timer)
      pure (s, some timer)

/-- `del_timer(timer)`. -/
def delTimer (s : TimeWheel σ) (timer : Ptr) : Exec (TimeWheel σ) :=
  if timer = none then pure s
  else do
    let t ← s.mem.read timer
    let ts := t.timeSlot
    let head ← s.slot ts
    if timer = head then
      let h ← s.mem.read head
      let s ← s.setSlot ts h.next
      let head ← s.slot ts
      let m ← (if head ≠ none then s.mem.modify head (setPrev none) else pure s.mem)
      let m ← m.delete timer
      pure { s with mem := m }
    else
      let m ← s.mem.modify t.prev (setNext t.next)
      let t ← m.read timer
      let m ← (if t.next ≠ none then m.modify t.next (setPrev t.prev) else pure m)
      let m ← m.delete timer
      pure { s with mem := m }

/-- The `while` loop of `tick`. It also returns the timers whose callback it has
invoked, in order. -/
def tickLoop (s : TimeWheel σ) (env : σ) (tmp : Ptr) : Exec (TimeWheel σ × σ × List Addr) :=
  match tmp with
  | none => pure (s, env, [])
  | some a => do
    let +zeta tickLoop : type_of% tickLoop := by apply tickLoop
    let t ← s.mem.read (some a)
    if t.rotation > 0 then
      let m ← s.mem.modify (some a) fun t => { t with rotation := t.rotation - 1 }
      let t ← m.read (some a)
      tickLoop { s with mem := m } env t.next
    else
      let env ← t.callback env
      let head ← s.slot s.curSlot
      if some a = head then
        let s ← s.setSlot s.curSlot t.next
        let m ← s.mem.delete (some a)
        let head ← s.slot s.curSlot
        let m ← (if head ≠ none then m.modify head (setPrev none) else pure m)
        let (s, env, fired) ← tickLoop { s with mem := m } env head
        pure (s, env, a :: fired)
      else
        let m ← s.mem.modify t.prev (setNext t.next)
        let t ← m.read (some a)
        let m ← (if t.next ≠ none then m.modify t.next (setPrev t.prev) else pure m)
        let t ← m.read (some a)
        let tmp2 := t.next
        let m ← m.delete (some a)
        let (s, env, fired) ← tickLoop { s with mem := m } env tmp2
        pure (s, env, a :: fired)
partial_fixpoint

/-- `tick()`. -/
def tick (s : TimeWheel σ) (env : σ) : Exec (TimeWheel σ × σ × List Addr) := do
  let tmp ← s.slot s.curSlot
  let (s, env, fired) ← tickLoop s env tmp
  pure ({ s with curSlot := (s.curSlot + 1).tmod N }, env, fired)

/-! ### What a wheel holds -/

/-- The timers of a memory, without their two pointers. -/
def data (m : Mem (TwTimer σ)) (a : Addr) : Option (TwData σ) := (m a).map TwTimer.toTwData

/-- **The representation**: the slot `i` holds the timers `L i`, linked in both
directions, and every timer is in the slot it is marked with. -/
structure Holds (s : TimeWheel σ) (L : ℤ → List Addr) : Prop where
  cur : IsSlot s.curSlot
  seg : ∀ i, IsSlot i → Seg s.mem none (s.slots i) (L i) none
  nodup : ∀ i, IsSlot i → (L i).Nodup
  slot : ∀ i, IsSlot i → ∀ a ∈ L i, ∀ d, data s.mem a = some d → d.timeSlot = i ∧ 0 ≤ d.rotation
  own : ∀ a d, data s.mem a = some d → IsSlot d.timeSlot ∧ a ∈ L d.timeSlot

variable {s s' : TimeWheel σ} {L : ℤ → List Addr} {m m' : Mem (TwTimer σ)} {t : TwTimer σ}
  {d : TwData σ} {l l' l₁ l₂ : List Addr} {a x : Addr} {i ts : ℤ}

theorem data_some (h : m a = some t) : data m a = some t.toTwData := by
  rw [data, h, Option.map_some]

theorem data_eq_some : data m a = some d ↔ ∃ t, m a = some t ∧ t.toTwData = d :=
  Option.map_eq_some_iff

theorem data_eq_none : data m a = none ↔ m a = none := Option.map_eq_none_iff

theorem data_congr (h : m' a = m a) : data m' a = data m a := by
  rw [data, h, data]

theorem data_linkNext (m : Mem (TwTimer σ)) (p q : Ptr) (a : Addr) :
    data (linkNext m p q) a = data m a :=
  linkNext_map (fun _ _ => rfl) m p q a

theorem data_linkPrev (m : Mem (TwTimer σ)) (p q : Ptr) (a : Addr) :
    data (linkPrev m p q) a = data m a :=
  linkPrev_map (fun _ _ => rfl) m p q a

theorem data_detached (m : Mem (TwTimer σ)) (l₁ l₂ : List Addr) (a : Addr) :
    data (detached m l₁ l₂) a = data m a :=
  detached_map (fun _ _ => rfl) (fun _ _ => rfl) m l₁ l₂ a

theorem isSlot_zero : IsSlot 0 := by decide

theorem slot_eq (h : IsSlot i) : s.slot i = pure (s.slots i) := by
  rw [TimeWheel.slot, if_pos h]

theorem setSlot_eq (h : IsSlot i) (p : Ptr) :
    s.setSlot i p = pure { s with slots := Function.update s.slots i p } := by
  rw [setSlot, if_pos h]

/-- The timers of a slot are alive, and marked with it. -/
theorem Holds.data_of_mem (h : Holds s L) (hi : IsSlot i) (ha : a ∈ L i) :
    ∃ d, data s.mem a = some d ∧ d.timeSlot = i ∧ 0 ≤ d.rotation := by
  obtain ⟨t, ht⟩ := (h.seg i hi).alive ha
  exact ⟨t.toTwData, data_some ht, h.slot i hi a ha _ (data_some ht)⟩

theorem holds_empty : Holds (.empty : TimeWheel σ) fun _ => [] where
  cur := isSlot_zero
  seg := fun _ _ => rfl
  nodup := fun _ _ => List.nodup_nil
  slot := fun _ _ _ h => absurd h List.not_mem_nil
  own := fun _ _ h => nomatch h

/-- **An operation changes one slot.** Its list has become `l'`, of timers that were
there or are new; those that have left it are gone, and every other timer is
as it was. -/
theorem Holds.changeSlot (h : Holds s L) (hts : IsSlot ts) (hcur : IsSlot s'.curSlot)
    (hslots : ∀ i, i ≠ ts → s'.slots i = s.slots i)
    (hseg : Seg s'.mem none (s'.slots ts) l' none) (hnd : l'.Nodup)
    (hsub : ∀ a ∈ l', a ∈ L ts ∨ s.mem a = none)
    (hnew : ∀ a ∈ l', ∀ d, data s'.mem a = some d → d.timeSlot = ts ∧ 0 ≤ d.rotation)
    (hgone : ∀ a ∈ L ts, a ∉ l' → s'.mem a = none)
    (hframe : ∀ a, a ∉ L ts → a ∉ l' → s'.mem a = s.mem a) :
    Holds s' (Function.update L ts l') := by
  -- a timer of another slot is in neither list, as its data name its slot
  have hother : ∀ i, IsSlot i → i ≠ ts → ∀ a ∈ L i, s'.mem a = s.mem a := by
    intro i hi hne a ha
    obtain ⟨d, hd, hdi, -⟩ := h.data_of_mem hi ha
    have hnot : a ∉ L ts := fun hc => hne (hdi.symm.trans (h.slot ts hts a hc d hd).1)
    refine hframe a hnot fun hc => ?_
    rcases hsub a hc with hc | hc
    · exact hnot hc
    · rw [data_eq_none.mpr hc] at hd
      cases hd
  refine ⟨hcur, fun i hi => ?_, fun i hi => ?_, fun i hi a ha d hd => ?_, fun a d hd => ?_⟩
  · by_cases hne : i = ts
    · rw [hne, Function.update_self]
      exact hseg
    · rw [Function.update_of_ne hne, hslots i hne]
      exact (h.seg i hi).congr (hother i hi hne)
  · by_cases hne : i = ts
    · rw [hne, Function.update_self]
      exact hnd
    · rw [Function.update_of_ne hne]
      exact h.nodup i hi
  · by_cases hne : i = ts
    · rw [hne, Function.update_self] at ha
      rw [hne]
      exact hnew a ha d hd
    · rw [Function.update_of_ne hne] at ha
      rw [data_congr (hother i hi hne a ha)] at hd
      exact h.slot i hi a ha d hd
  · by_cases hal : a ∈ l'
    · rw [(hnew a hal d hd).1, Function.update_self]
      exact ⟨hts, hal⟩
    · have hnot : a ∉ L ts := fun hc => by
        rw [data_eq_none.mpr (hgone a hc hal)] at hd
        cases hd
      rw [data_congr (hframe a hnot hal)] at hd
      obtain ⟨hds, hmem⟩ := h.own a d hd
      have hne : d.timeSlot ≠ ts := fun hc => hnot (hc ▸ hmem)
      rw [Function.update_of_ne hne]
      exact ⟨hds, hmem⟩

/-- The data of a timer that do not place it on the wheel may be written. -/
theorem Holds.setData (h : Holds s L) {t' : TwTimer σ}
    (ht : s.mem a = some t) (hpv : t'.prev = t.prev) (hnx : t'.next = t.next)
    (hts : t'.timeSlot = t.timeSlot) (hrot : t'.rotation = t.rotation) :
    Holds { s with mem := s.mem.set a t' } L := by
  have hdata : ∀ b d, data (s.mem.set a t') b = some d → ∃ d₀, data s.mem b = some d₀ ∧
      d.timeSlot = d₀.timeSlot ∧ d.rotation = d₀.rotation := by
    intro b d hd
    by_cases hb : b = a
    · rw [hb, data_some (Mem.set_self _ _ _)] at hd
      rw [← Option.some.inj hd, hb]
      exact ⟨_, data_some ht, hts, hrot⟩
    · rw [data_congr (Mem.set_of_ne _ _ hb)] at hd
      exact ⟨d, hd, rfl, rfl⟩
  refine ⟨h.cur, fun i hi => (h.seg i hi).set ht hpv hnx, h.nodup, fun i hi b hb d hd => ?_,
    fun b d hd => ?_⟩
  · obtain ⟨d₀, hd₀, hts₀, hrot₀⟩ := hdata b d hd
    rw [hts₀, hrot₀]
    exact h.slot i hi b hb d₀ hd₀
  · obtain ⟨d₀, hd₀, hts₀, -⟩ := hdata b d hd
    rw [hts₀]
    exact h.own b d₀ hd₀

/-! ### Insertion and removal -/

/-- Where a timer goes that has `ticks` to wait. -/
theorem isSlot_add (hcur : IsSlot i) {ticks : ℤ} (ht : 0 ≤ ticks) :
    IsSlot ((i + ticks.tmod N).tmod N) := by
  obtain ⟨h₀, h₁⟩ := hcur
  have hmod : 0 ≤ ticks.tmod N := Int.tmod_nonneg N ht
  exact ⟨Int.tmod_nonneg N (by omega), Int.tmod_lt_of_pos _ (by decide)⟩

theorem ticksOf_pos (timeout : ℤ) : 0 < ticksOf timeout := by
  rw [ticksOf]
  split
  · decide
  · rename_i hlt
    rw [SI, Int.tdiv_one]
    rw [SI] at hlt
    omega

/-- The new timer of `add_timer`. -/
def newTimer (cur timeout : ℤ) : TwTimer σ :=
  .create ((ticksOf timeout).tdiv N) ((cur + (ticksOf timeout).tmod N).tmod N)

/-- The memory and the head of the slot `ts` after a new timer, `n` at `x`, has been spliced
in front of the list `l`. -/
theorem addTimer_eq (hcur : IsSlot s.curSlot) {timeout : ℤ} (ht : 0 ≤ timeout)
    {ts : ℤ} (hts : ts = (s.curSlot + (ticksOf timeout).tmod N).tmod N) {n : TwTimer σ}
    (hn : TwTimer.create ((ticksOf timeout).tdiv N) ts = n)
    (hseg : Seg (s.mem.set x n) none (s.slots ts) l none) :
    addTimer s x timeout = pure ({ s with
      mem := linkPrev (linkNext (s.mem.set x n) (some x) l.head?) l.head? (some x)
      slots := Function.update s.slots ts (some x) }, some x) := by
  have hslot : IsSlot ts := hts ▸ isSlot_add hcur (ticksOf_pos timeout).le
  have hnx : (s.mem.set x n) x = some n := Mem.set_self _ _ _
  have hhead : s.slots ts = l.head? := by rw [hseg.first, headOr_none]
  rw [addTimer, if_neg (not_lt.mpr ht)]
  dsimp only
  rw [← hts, hn, slot_eq hslot, pure_bind]
  dsimp only
  rw [hhead]
  cases l with
  | nil =>
    -- the code leaves the two pointers of the first timer of a slot as they are
    have hnext : setNext none n = n := by rw [← hn]; rfl
    rw [List.head?_nil, if_pos rfl, setSlot_eq hslot, pure_bind, linkPrev_none,
      linkNext_some hnx, hnext, Mem.set_set]
  | cons b l =>
    have hb : Alive (s.mem.set x n) (some b) := hseg.alive_mem List.mem_cons_self
    rw [List.head?_cons, if_neg (by simp), (alive_some hnx).modify_setNext, pure_bind,
      (hb.linkNext _ _).modify_setPrev, pure_bind, setSlot_eq hslot, pure_bind]

/-- **`add_timer`** puts a new timer in front of the list of its slot. -/
theorem addTimer_spec (h : Holds s L) (hx : s.mem x = none) {timeout : ℤ} (ht : 0 ≤ timeout) :
    ∃ s' L', addTimer s x timeout = pure (s', some x) ∧ Holds s' L' ∧
      s'.curSlot = s.curSlot ∧ ∀ a, data s'.mem a =
        if a = x then some (newTimer s.curSlot timeout).toTwData else data s.mem a := by
  obtain ⟨ts, hts⟩ : ∃ ts, ts = (s.curSlot + (ticksOf timeout).tmod N).tmod N := ⟨_, rfl⟩
  have hslot : IsSlot ts := hts ▸ isSlot_add h.cur (ticksOf_pos timeout).le
  obtain ⟨n, hn⟩ : ∃ n : TwTimer σ, n = newTimer s.curSlot timeout := ⟨_, rfl⟩
  have hn' : TwTimer.create ((ticksOf timeout).tdiv N) ts = n := by rw [hn, newTimer, hts]
  have hnts : n.timeSlot = ts := by rw [← hn']; rfl
  have hnrot : 0 ≤ n.rotation := by
    rw [← hn']
    exact Int.tdiv_nonneg (ticksOf_pos timeout).le (by decide)
  have hxl : x ∉ L ts := by
    intro hmem
    obtain ⟨t, ht⟩ := (h.seg ts hslot).alive hmem
    rw [hx] at ht
    cases ht
  have hnd : (x :: L ts).Nodup := List.nodup_cons.mpr ⟨hxl, h.nodup ts hslot⟩
  -- the memory that the splicing in front leaves
  obtain ⟨m, hm⟩ : ∃ m, m = linkPrev (linkNext (s.mem.set x n) (some x) (L ts).head?)
      (L ts).head? (some x) := ⟨_, rfl⟩
  have hset : Seg (s.mem.set x n) none (s.slots ts) (L ts) none :=
    (h.seg ts hslot).congr fun a ha => Mem.set_of_ne _ _ (ne_of_mem_of_not_mem ha hxl)
  have hnx : (s.mem.set x n) x = some n := Mem.set_self _ _ _
  have hseg : Seg m none (some x) (x :: L ts) none := by
    have hpush := hset.pushFront hnx (show prev n = none by rw [← hn']; rfl) hnd
    rwa [headOr_none, ← hm] at hpush
  have hdata : ∀ a, data m a = if a = x then some n.toTwData else data s.mem a := by
    intro a
    rw [hm, data_linkPrev, data_linkNext]
    split
    · rename_i hax
      rw [hax, data_some hnx]
    · rename_i hax
      exact data_congr (Mem.set_of_ne _ _ hax)
  refine ⟨{ s with mem := m, slots := Function.update s.slots ts (some x) },
    Function.update L ts (x :: L ts), ?_, ?_, rfl, ?_⟩
  · rw [hm]
    exact addTimer_eq h.cur ht hts hn' hset
  · refine h.changeSlot hslot h.cur (fun i hi => Function.update_of_ne hi _ _) ?_ hnd
      (fun a ha => ?_) (fun a ha d hd => ?_) (fun a ha hna => ?_) fun a ha hna => ?_
    · change Seg m none (Function.update s.slots ts (some x) ts) (x :: L ts) none
      rwa [Function.update_self]
    · rcases List.mem_cons.mp ha with rfl | ha
      · exact Or.inr hx
      · exact Or.inl ha
    · change data m a = some d at hd
      rw [hdata a] at hd
      split at hd
      · obtain rfl := Option.some.inj hd
        exact ⟨hnts, hnrot⟩
      · rename_i hax
        exact h.slot ts hslot a ((List.mem_cons.mp ha).resolve_left hax) d hd
    · exact absurd (List.mem_cons_of_mem x ha) hna
    · change m a = s.mem a
      have hax : a ≠ x := fun hc => hna (hc ▸ List.mem_cons_self)
      rw [hm, linkPrev_of_ne (fun hc => ha (List.mem_of_head? hc)),
        linkNext_of_ne (fun hc => hax (Option.some.inj hc).symm), Mem.set_of_ne _ _ hax]
  · rw [← hn]
    exact hdata

/-- The wheel without the timer between `l₁` and `l₂` in the slot `ts`. -/
def removed (s : TimeWheel σ) (ts : ℤ) (l₁ : List Addr) (x : Addr) (l₂ : List Addr) :
    TimeWheel σ :=
  { s with
    mem := (detached s.mem l₁ l₂).clear x
    slots := Function.update s.slots ts (l₁ ++ l₂).head? }

/-- Behind the first timer, `slots` does not change. -/
theorem removed_of_ne_nil (h : Seg s.mem none (s.slots ts) (l₁ ++ x :: l₂) none) (hne : l₁ ≠ []) :
    removed s ts l₁ x l₂ = { s with mem := (detached s.mem l₁ l₂).clear x } := by
  have hhead : (l₁ ++ l₂).head? = s.slots ts := by
    rw [h.first, headOr_none, List.head?_append_of_ne_nil _ hne, List.head?_append_of_ne_nil _ hne]
  rw [removed, hhead, Function.update_eq_self]

theorem data_removed (s : TimeWheel σ) (ts : ℤ) (l₁ l₂ : List Addr) (a x : Addr) :
    data (removed s ts l₁ x l₂).mem a = if a = x then none else data s.mem a := by
  change data ((detached s.mem l₁ l₂).clear x) a = _
  split
  · rename_i hax
    rw [hax, data_eq_none, Mem.clear_self]
  · rename_i hax
    rw [data_congr (Mem.clear_of_ne _ hax), data_detached]

/-- The list of the slot from which a timer has been removed. -/
theorem seg_removed (h : Seg s.mem none (s.slots ts) (l₁ ++ x :: l₂) none)
    (hnd : (l₁ ++ x :: l₂).Nodup) :
    Seg (removed s ts l₁ x l₂).mem none ((removed s ts l₁ x l₂).slots ts) (l₁ ++ l₂) none := by
  simp only [removed, Function.update_self]
  exact (h.detach hnd).clear_frame (notMem_of_nodup hnd)

/-- `p->next->prev = p->prev` behind a null check, after the `next` of the node before
has been set. -/
theorem modify_next {p : Ptr} (h : Seg m none p (l₁ ++ x :: l₂) none) (q r : Ptr) :
    (if l₂.head? ≠ none then (linkNext m q r).modify l₂.head? (setPrev l₁.getLast?)
      else pure (linkNext m q r)) =
      pure (linkPrev (linkNext m q r) l₂.head? l₁.getLast?) :=
  modify_head (fun _ hb => (h.alive_mem
    (List.mem_append_right l₁ (List.mem_cons_of_mem x (List.mem_of_head? hb)))).linkNext q r) _

/-- **`del_timer`** removes and deletes a timer of the wheel. -/
theorem delTimer_eq (h : Holds s L) (hd : data s.mem x = some d)
    (hL : L d.timeSlot = l₁ ++ x :: l₂) :
    delTimer s (some x) = pure (removed s d.timeSlot l₁ x l₂) := by
  obtain ⟨hslot, -⟩ := h.own x d hd
  have hseg := h.seg d.timeSlot hslot
  have hnd := h.nodup d.timeSlot hslot
  rw [hL] at hseg hnd
  obtain ⟨t, ht, hpv, hnx⟩ := hseg.neighbours
  change t.prev = l₁.getLast? at hpv
  change t.next = l₂.head? at hnx
  have htd : t.timeSlot = d.timeSlot := by
    obtain ⟨t', ht', rfl⟩ := data_eq_some.mp hd
    rw [ht] at ht'
    rw [Option.some.inj ht']
  have hdel := Mem.delete_some (detached_self hnd ht)
  rw [delTimer, if_neg (by simp), Mem.read_some ht, pure_bind]
  dsimp only
  rw [htd, slot_eq hslot, pure_bind]
  -- the code asks whether the timer is the head of its slot
  by_cases h₁ : l₁ = []
  · subst h₁
    have hhead : s.slots d.timeSlot = some x := ((hseg.eq_head_iff hnd).mpr rfl).symm
    rw [if_pos hhead.symm, hhead, Mem.read_some ht, pure_bind, setSlot_eq hslot, pure_bind,
      slot_eq hslot, pure_bind]
    simp only [Function.update_self]
    rw [hnx, modify_head (fun _ hb => hseg.alive_mem
      (List.mem_cons_of_mem x (List.mem_of_head? hb))) none, pure_bind,
      show linkPrev s.mem l₂.head? none = detached s.mem [] l₂ from rfl, hdel, pure_bind]
    rfl
  · rw [if_neg fun hc => h₁ ((hseg.eq_head_iff hnd).mp hc), hpv,
      (hseg.alive_getLast h₁).modify_setNext, pure_bind,
      Mem.read_some (linkNext_neighbour hnd ht _), pure_bind, hnx, hpv, modify_next hseg, pure_bind,
      show linkPrev (linkNext s.mem l₁.getLast? l₂.head?) l₂.head? l₁.getLast? =
        detached s.mem l₁ l₂ from rfl, hdel, pure_bind, removed_of_ne_nil hseg h₁]

theorem delTimer_spec (h : Holds s L) (hd : data s.mem x = some d) :
    ∃ s' L', delTimer s (some x) = pure s' ∧ Holds s' L' ∧ s'.curSlot = s.curSlot ∧
      ∀ a, data s'.mem a = if a = x then none else data s.mem a := by
  obtain ⟨hslot, hmem⟩ := h.own x d hd
  obtain ⟨l₁, l₂, hL⟩ := List.append_of_mem hmem
  have hseg := h.seg d.timeSlot hslot
  have hnd := h.nodup d.timeSlot hslot
  rw [hL] at hseg hnd
  have hsub : ∀ a ∈ l₁ ++ l₂, a ∈ L d.timeSlot ∧ a ≠ x := fun a ha => by
    rw [hL]
    exact ⟨List.perm_middle.mem_iff.mpr (List.mem_cons_of_mem x ha),
      ne_of_mem_of_not_mem ha (notMem_of_nodup hnd)⟩
  refine ⟨_, _, delTimer_eq h hd hL, h.changeSlot hslot h.cur
    (fun i hi => Function.update_of_ne hi _ _) (seg_removed hseg hnd)
    (List.nodup_cons.mp (List.perm_middle.nodup_iff.mp hnd)).2
    (fun a ha => Or.inl (hsub a ha).1) (fun a ha d' hd' => ?_) (fun a ha hna => ?_)
    fun a ha hna => ?_, rfl, fun a => data_removed s d.timeSlot l₁ l₂ a x⟩
  · rw [data_removed, if_neg (hsub a ha).2] at hd'
    exact h.slot d.timeSlot hslot a (hsub a ha).1 d' hd'
  · have hax : a = x := by
      rw [hL] at ha
      exact (List.mem_cons.mp (List.perm_middle.mem_iff.mp ha)).resolve_right hna
    rw [← data_eq_none, data_removed, if_pos hax]
  · change (detached s.mem l₁ l₂).clear x a = s.mem a
    have hax : a ≠ x := fun hc => ha (hc ▸ hmem)
    rw [Mem.clear_of_ne _ hax, detached_of_notMem hna]

/-! ### The walk of a tick -/

/-- What a tick does to a timer of the current slot: one rotation is taken off, or it
is fired. -/
def turn (d : TwData σ) : Option (TwData σ) :=
  if 0 < d.rotation then some { d with rotation := d.rotation - 1 } else none

/-- What a tick leaves at an address of the current slot. -/
def turnAt (m : Mem (TwTimer σ)) (a : Addr) : Option (TwData σ) := (data m a).bind turn

/-- The timers of a list that a tick fires. -/
def firedOf (m : Mem (TwTimer σ)) (l : List Addr) : List Addr :=
  l.filter fun a => (turnAt m a).isNone

/-- The timers of a list that a tick leaves there. -/
def keptOf (m : Mem (TwTimer σ)) (l : List Addr) : List Addr :=
  l.filter fun a => (turnAt m a).isSome

/-- The callback of the timer at `a`, run in the environment. -/
def call (m : Mem (TwTimer σ)) (env : σ) (a : Addr) : σ :=
  match data m a with
  | some { cbFunc := some f, userData := u, .. } => f u env
  | _ => env

/-- **What the walk leaves**: the timers `todo` of the current slot, which come after
the timers `done`, have each had their turn. -/
structure Swept (s : TimeWheel σ) (done todo : List Addr) (s' : TimeWheel σ) : Prop where
  curSlot : s'.curSlot = s.curSlot
  slots : ∀ i, i ≠ s.curSlot → s'.slots i = s.slots i
  seg : Seg s'.mem none (s'.slots s.curSlot) (done ++ keptOf s.mem todo) none
  frame : ∀ a, a ∉ done ++ todo → s'.mem a = s.mem a
  data : ∀ a, data s'.mem a = if a ∈ todo then turnAt s.mem a else TimeWheel.data s.mem a

/-- The lists of fired and kept timers depend on their own timers only. -/
theorem firedOf_congr (h : ∀ a ∈ l, data m' a = data m a) : firedOf m' l = firedOf m l :=
  List.filter_congr fun a ha => by rw [turnAt, turnAt, h a ha]

theorem keptOf_congr (h : ∀ a ∈ l, data m' a = data m a) : keptOf m' l = keptOf m l :=
  List.filter_congr fun a ha => by rw [turnAt, turnAt, h a ha]

theorem mem_of_mem_firedOf (h : a ∈ firedOf m l) : a ∈ l := List.mem_of_mem_filter h

theorem foldl_call_congr (h : ∀ a ∈ l, data m' a = data m a) (env : σ) :
    l.foldl (call m') env = l.foldl (call m) env := by
  induction l generalizing env with
  | nil => rfl
  | cons a l ih =>
    rw [List.foldl_cons, List.foldl_cons, call, h a List.mem_cons_self, ← call]
    exact ih (fun b hb => h b (List.mem_cons_of_mem a hb)) _

/-! A timer that stays is kept, and one that does not is fired. -/

theorem firedOf_keep (h : turnAt m a = some d) (l : List Addr) :
    firedOf m (a :: l) = firedOf m l := by
  rw [firedOf, List.filter_cons_of_neg, firedOf]
  rw [h]
  simp

theorem firedOf_fire (h : turnAt m a = none) (l : List Addr) :
    firedOf m (a :: l) = a :: firedOf m l := by
  rw [firedOf, List.filter_cons_of_pos, firedOf]
  rw [h]
  rfl

theorem keptOf_keep (h : turnAt m a = some d) (l : List Addr) :
    keptOf m (a :: l) = a :: keptOf m l := by
  rw [keptOf, List.filter_cons_of_pos, keptOf]
  rw [h]
  rfl

theorem keptOf_fire (h : turnAt m a = none) (l : List Addr) :
    keptOf m (a :: l) = keptOf m l := by
  rw [keptOf, List.filter_cons_of_neg, keptOf]
  rw [h]
  simp

theorem Swept.nil (h : Seg s.mem none (s.slots s.curSlot) (done ++ []) none) :
    Swept s done [] s :=
  ⟨rfl, fun _ _ => rfl, h, fun _ _ => rfl, fun a => by simp⟩

/-- The walk after a timer that stays: what it leaves behind the timer is what it leaves
behind those before and the timer. -/
theorem Swept.keep (hnd : (done ++ a :: todo).Nodup) (hturn : turnAt s.mem a = some d)
    (hcur : s₁.curSlot = s.curSlot) (hslots : s₁.slots = s.slots)
    (hother : ∀ b, b ≠ a → s₁.mem b = s.mem b) (hself : TimeWheel.data s₁.mem a = some d)
    (h : Swept s₁ (done ++ [a]) todo s') : Swept s done (a :: todo) s' := by
  have hne : ∀ b ∈ todo, b ≠ a := fun b hb =>
    ne_of_mem_of_not_mem (List.mem_append_right done hb) (notMem_of_nodup hnd)
  refine ⟨h.curSlot.trans hcur, fun i hi => ?_, ?_, fun b hb => ?_, fun b => ?_⟩
  · rw [h.slots i (hcur ▸ hi), hslots]
  · have hseg := h.seg
    rw [keptOf_congr fun b hb => data_congr (hother b (hne b hb)), hcur, List.append_assoc,
      List.singleton_append] at hseg
    rwa [keptOf_keep hturn]
  · rw [h.frame b (by simpa using hb)]
    exact hother b fun hc => hb (by simp [hc])
  · rw [h.data]
    rcases eq_or_ne b a with rfl | hba
    · rw [if_neg fun hc => hne b hc rfl, if_pos List.mem_cons_self, hturn, hself]
    · simp only [List.mem_cons, hba, false_or]
      rw [turnAt, turnAt, data_congr (hother b hba)]

/-- The walk after a timer that is fired, and is not there any more. -/
theorem Swept.fire (hnd : (done ++ a :: todo).Nodup) (hturn : turnAt s.mem a = none)
    (h : Swept (removed s s.curSlot done a todo) done todo s') : Swept s done (a :: todo) s' := by
  have hne : ∀ b ∈ todo, b ≠ a := fun b hb =>
    ne_of_mem_of_not_mem (List.mem_append_right done hb) (notMem_of_nodup hnd)
  have hmid : ∀ b, b ∈ done ++ todo → b ∈ done ++ a :: todo := fun b hb =>
    List.perm_middle.mem_iff.mpr (List.mem_cons_of_mem a hb)
  have hdata : ∀ b, TimeWheel.data (removed s s.curSlot done a todo).mem b =
      if b = a then none else TimeWheel.data s.mem b := fun b =>
    data_removed s s.curSlot done todo b a
  have htodo : ∀ b ∈ todo, TimeWheel.data (removed s s.curSlot done a todo).mem b =
      TimeWheel.data s.mem b := fun b hb => by rw [hdata, if_neg (hne b hb)]
  refine ⟨h.curSlot, fun i hi => ?_, ?_, fun b hb => ?_, fun b => ?_⟩
  · rw [h.slots i hi]
    exact Function.update_of_ne hi _ _
  · have hseg := h.seg
    rw [keptOf_congr htodo] at hseg
    rwa [keptOf_fire hturn]
  · rw [h.frame b fun hc => hb (hmid b hc)]
    change (detached s.mem done todo).clear a b = s.mem b
    have hba : b ≠ a := fun hc => hb (by simp [hc])
    rw [Mem.clear_of_ne _ hba, detached_of_notMem fun hc => hb (hmid b hc)]
  · rw [h.data]
    rcases eq_or_ne b a with rfl | hba
    · rw [if_neg fun hc => hne b hc rfl, if_pos List.mem_cons_self, hturn, hdata, if_pos rfl]
    · simp only [List.mem_cons, hba, false_or]
      rw [turnAt, turnAt, hdata, if_neg hba]

/-- A timer that has rotations left loses one. -/
theorem tickLoop_rotate (ht : s.mem a = some t) (hrot : 0 < t.rotation) (env : σ) :
    tickLoop s env (some a) =
      tickLoop { s with mem := s.mem.set a { t with rotation := t.rotation - 1 } } env t.next := by
  rw [tickLoop, Mem.read_some ht, pure_bind, if_pos hrot, Mem.modify_some ht, pure_bind,
    Mem.read_some (Mem.set_self _ _ _), pure_bind]

/-- A timer that has none left is fired and removed. -/
theorem tickLoop_fire (hcur : IsSlot s.curSlot)
    (h : Seg s.mem none (s.slots s.curSlot) (l₁ ++ a :: l₂) none) (hnd : (l₁ ++ a :: l₂).Nodup)
    (ht : s.mem a = some t) (hrot : ¬0 < t.rotation) (hset : t.cbFunc ≠ none) (env : σ) :
    tickLoop s env (some a) =
      tickLoop (removed s s.curSlot l₁ a l₂) (call s.mem env a) l₂.head? >>= fun r =>
        pure (r.1, r.2.1, a :: r.2.2) := by
  obtain ⟨t', ht', hpv, hnx⟩ := h.neighbours
  obtain rfl : t = t' := Option.some.inj (ht.symm.trans ht')
  change t.prev = l₁.getLast? at hpv
  change t.next = l₂.head? at hnx
  have hnot := notMem_of_nodup hnd
  have hcall : t.callback env = pure (call s.mem env a) := by
    obtain ⟨f, hf⟩ := Option.ne_none_iff_exists'.mp hset
    obtain ⟨⟨u, r, ts, c⟩, pv, nx⟩ := t
    obtain rfl : c = some f := hf
    rw [call, data_some ht]
    rfl
  rw [tickLoop, Mem.read_some ht, pure_bind, if_neg hrot, hcall, pure_bind, slot_eq hcur, pure_bind]
  -- the two branches of the code: the timer is the head of its slot, or has one before it
  by_cases h₁ : l₁ = []
  · subst h₁
    have hhead : s.slots s.curSlot = some a := ((h.eq_head_iff hnd).mpr rfl).symm
    have hmem : linkPrev (s.mem.clear a) l₂.head? none = (detached s.mem [] l₂).clear a :=
      linkPrev_clear (fun hc => hnot (List.mem_of_head? hc)) none
    have halive : ∀ b, l₂.head? = some b → Alive (s.mem.clear a) (some b) := by
      intro b hb
      have hbt : b ∈ l₂ := List.mem_of_head? hb
      obtain ⟨n, hn⟩ := h.alive (List.mem_cons_of_mem a hbt)
      exact alive_some ((Mem.clear_of_ne _ (ne_of_mem_of_not_mem hbt hnot)).trans hn)
    rw [if_pos hhead.symm, setSlot_eq hcur, pure_bind, Mem.delete_some ht, pure_bind, hnx,
      slot_eq (s := { s with slots := Function.update s.slots s.curSlot l₂.head? }) hcur, pure_bind]
    simp only [Function.update_self]
    rw [modify_head halive, pure_bind, hmem]
    rfl
  · have hdel := Mem.delete_some (detached_self hnd ht)
    have hmem : linkPrev (linkNext s.mem l₁.getLast? l₂.head?) l₂.head? l₁.getLast? =
        detached s.mem l₁ l₂ := rfl
    rw [if_neg fun hc => h₁ ((h.eq_head_iff hnd).mp hc), hpv, (h.alive_getLast h₁).modify_setNext,
      pure_bind, Mem.read_some (linkNext_neighbour hnd ht _), pure_bind, hnx, hpv, modify_next h,
      pure_bind, hmem, Mem.read_some (detached_self hnd ht), pure_bind]
    dsimp only
    rw [hdel, pure_bind, removed_of_ne_nil h h₁, hnx]

/-- **The loop of `tick`** gives every timer of the current slot its turn. -/
theorem tickLoop_spec {done todo : List Addr} (hcur : IsSlot s.curSlot)
    (h : Seg s.mem none (s.slots s.curSlot) (done ++ todo) none) (hnd : (done ++ todo).Nodup)
    (hset : ∀ a ∈ todo, ∀ d, data s.mem a = some d → d.cbFunc ≠ none) (env : σ) :
    ∃ s', tickLoop s env todo.head? =
        pure (s', (firedOf s.mem todo).foldl (call s.mem) env, firedOf s.mem todo) ∧
      Swept s done todo s' := by
  induction todo generalizing s done env with
  | nil =>
    rw [List.head?_nil, tickLoop]
    exact ⟨s, rfl, .nil h⟩
  | cons a todo ih =>
    obtain ⟨t, ht, -, hnx⟩ := h.neighbours
    change t.next = todo.head? at hnx
    have hturn : turnAt s.mem a = turn t.toTwData := by rw [turnAt, data_some ht]; rfl
    have hne : ∀ b ∈ todo, b ≠ a := fun b hb =>
      ne_of_mem_of_not_mem (List.mem_append_right done hb) (notMem_of_nodup hnd)
    rw [List.head?_cons]
    rcases lt_or_ge 0 t.rotation with hrot | hrot
    · -- one rotation is taken off, and the walk goes on behind the timer
      obtain ⟨s₁, hs₁⟩ : ∃ s₁, s₁ =
        { s with mem := s.mem.set a { t with rotation := t.rotation - 1 } } := ⟨_, rfl⟩
      rw [tickLoop_rotate ht hrot, ← hs₁, hnx]
      rw [show turn t.toTwData = some { t.toTwData with rotation := t.rotation - 1 } from
        if_pos hrot] at hturn
      have hother : ∀ b, b ≠ a → s₁.mem b = s.mem b := fun b hb => by
        rw [hs₁]
        exact Mem.set_of_ne _ _ hb
      have hself : data s₁.mem a = some { t.toTwData with rotation := t.rotation - 1 } := by
        rw [hs₁]
        exact data_some (Mem.set_self _ _ _)
      have htodo : ∀ b ∈ todo, data s₁.mem b = data s.mem b := fun b hb =>
        data_congr (hother b (hne b hb))
      have hcur₁ : s₁.curSlot = s.curSlot := by rw [hs₁]
      have hseg : Seg s₁.mem none (s₁.slots s₁.curSlot) ((done ++ [a]) ++ todo) none := by
        rw [List.append_assoc, List.singleton_append, hs₁]
        exact h.set ht rfl rfl
      obtain ⟨s', hcode, hs'⟩ := ih (hcur₁ ▸ hcur) hseg
        (by rwa [List.append_assoc, List.singleton_append])
        (fun b hb d hd => hset b (List.mem_cons_of_mem a hb) d (htodo b hb ▸ hd)) env
      refine ⟨s', ?_, hs'.keep hnd hturn hcur₁ (by rw [hs₁]) hother hself⟩
      rw [hcode, firedOf_keep hturn, firedOf_congr htodo,
        foldl_call_congr (fun b hb => htodo b (mem_of_mem_firedOf hb)) env]
    · -- the timer is fired and removed, and the walk goes on with the next one
      have hrot : ¬0 < t.rotation := not_lt.mpr hrot
      rw [tickLoop_fire hcur h hnd ht hrot (hset a List.mem_cons_self _ (data_some ht))]
      rw [show turn t.toTwData = none from if_neg hrot] at hturn
      have htodo : ∀ b ∈ todo, data (removed s s.curSlot done a todo).mem b = data s.mem b :=
        fun b hb => by rw [data_removed, if_neg (hne b hb)]
      have hcur₁ : IsSlot (removed s s.curSlot done a todo).curSlot := hcur
      obtain ⟨s', hcode, hs'⟩ := ih hcur₁ (seg_removed h hnd)
        (List.nodup_cons.mp (List.perm_middle.nodup_iff.mp hnd)).2
        (fun b hb d hd => hset b (List.mem_cons_of_mem a hb) d (htodo b hb ▸ hd)) (call s.mem env a)
      refine ⟨s', ?_, hs'.fire hnd hturn⟩
      rw [hcode, pure_bind, firedOf_fire hturn, firedOf_congr htodo, List.foldl_cons,
        foldl_call_congr (fun b hb => htodo b (mem_of_mem_firedOf hb))]

/-! ### Due times

Time is counted in ticks. A timer is fired by the tick that finds it in the current
slot without a rotation left. -/

/-- **The tick that fires a timer**, when the next tick is the one numbered `now` and
finds the wheel at the slot `cur`. -/
def due (now cur : ℤ) (d : TwData σ) : ℤ := now + (d.timeSlot - cur) % N + N * d.rotation

/-- The timers of a wheel, with the ticks that fire them. -/
def pending (now : ℤ) (s : TimeWheel σ) : Pending Addr ℤ :=
  fun a => (data s.mem a).map (due now s.curSlot)

variable {now cur timeout : ℤ} {d' : TwData σ}

theorem pending_eq_some {t : ℤ} :
    pending now s a = some t ↔ ∃ d, data s.mem a = some d ∧ due now s.curSlot d = t :=
  Option.map_eq_some_iff

/-- **A new timer is due after its ticks.** The number of ticks is split into a
rotation and a slot, and put together again. -/
theorem due_create (hcur : IsSlot cur) :
    due now cur (newTimer cur timeout : TwTimer σ).toTwData = now + ticksOf timeout := by
  have hpos := ticksOf_pos timeout
  obtain ⟨h₀, h₁⟩ := hcur
  have hmod : (ticksOf timeout).tmod N = ticksOf timeout % N := Int.tmod_eq_emod_of_nonneg hpos.le
  have hdiv : (ticksOf timeout).tdiv N = ticksOf timeout / N := Int.tdiv_eq_ediv_of_nonneg hpos.le
  have hsum : (cur + ticksOf timeout % N).tmod N = (cur + ticksOf timeout % N) % N :=
    Int.tmod_eq_emod_of_nonneg (by simp only [N] at *; omega)
  simp only [due, newTimer, TwTimer.create, hmod, hdiv, hsum]
  simp only [N] at *
  omega

/-- The current slot moves on. -/
theorem next_cur (hcur : IsSlot cur) : (cur + 1).tmod N = (cur + 1) % N := by
  obtain ⟨h₀, -⟩ := hcur
  exact Int.tmod_eq_emod_of_nonneg (by omega)

theorem isSlot_next (hcur : IsSlot cur) : IsSlot ((cur + 1).tmod N) := by
  rw [next_cur hcur]
  simp only [IsSlot, N]
  omega

/-- A turn changes the rotation only, and leaves it non-negative. -/
theorem turn_some (h : turn d = some d') :
    0 ≤ d'.rotation ∧ d'.timeSlot = d.timeSlot ∧ d'.cbFunc = d.cbFunc := by
  rw [turn] at h
  split at h
  · obtain rfl := Option.some.inj h
    exact ⟨by dsimp only; omega, rfl, rfl⟩
  · cases h

/-- A timer of the current slot that stays is not due yet, and a tick does not change
when it is. -/
theorem due_turn (hcur : IsSlot cur) (hslot : d.timeSlot = cur) (h : turn d = some d') :
    due (now + 1) ((cur + 1).tmod N) d' = due now cur d ∧ now < due now cur d := by
  rw [turn] at h
  split at h
  · obtain rfl := Option.some.inj h
    obtain ⟨h₀, h₁⟩ := hcur
    rw [next_cur ⟨h₀, h₁⟩]
    simp only [due, N] at *
    omega
  · cases h

/-- A timer of the current slot that is fired is due. -/
theorem due_of_turn_none (hslot : d.timeSlot = cur) (hrot : 0 ≤ d.rotation) (h : turn d = none) :
    due now cur d = now := by
  rw [turn] at h
  split at h
  · cases h
  · simp only [due, N]
    omega

/-- The timers of the other slots are not due yet, and a tick does not change when they
are. -/
theorem due_other (hcur : IsSlot cur) (hslot : IsSlot d.timeSlot) (hne : d.timeSlot ≠ cur)
    (hrot : 0 ≤ d.rotation) :
    due (now + 1) ((cur + 1).tmod N) d = due now cur d ∧ now < due now cur d := by
  obtain ⟨h₀, h₁⟩ := hslot
  obtain ⟨h₂, h₃⟩ := hcur
  rw [next_cur ⟨h₂, h₃⟩]
  simp only [due, N] at *
  omega

/-- **What a tick does to a timer**: it is fired now, or it will be fired by the same
tick as before, which is a later one. -/
theorem Holds.turn_cases (h : Holds s L) (hd : data s.mem a = some d) (now : ℤ) :
    (a ∈ firedOf s.mem (L s.curSlot) ∧ due now s.curSlot d = now) ∨
      (a ∉ firedOf s.mem (L s.curSlot) ∧ now < due now s.curSlot d ∧
        ∃ d', (if a ∈ L s.curSlot then turnAt s.mem a else data s.mem a) = some d' ∧
          due (now + 1) ((s.curSlot + 1).tmod N) d' = due now s.curSlot d ∧
          d'.cbFunc = d.cbFunc) := by
  have hturn : turnAt s.mem a = turn d := by rw [turnAt, hd]; rfl
  obtain ⟨hds, hmem⟩ := h.own a d hd
  have hrot : 0 ≤ d.rotation := (h.slot _ hds a hmem d hd).2
  by_cases ha : a ∈ L s.curSlot
  · have hcur : d.timeSlot = s.curSlot := (h.slot _ h.cur a ha d hd).1
    rcases hdd : turn d with _ | d'
    · refine Or.inl ⟨List.mem_filter.mpr ⟨ha, ?_⟩, due_of_turn_none hcur hrot hdd⟩
      rw [hturn, hdd]
      rfl
    · obtain ⟨hdue, hlt⟩ : _ ∧ now < due now s.curSlot d := due_turn h.cur hcur hdd
      refine Or.inr ⟨fun hc => ?_, hlt, d', ?_, hdue, (turn_some hdd).2.2⟩
      · have hnone := (List.mem_filter.mp hc).2
        rw [hturn, hdd] at hnone
        cases hnone
      · rw [if_pos ha, hturn, hdd]
  · have hne : d.timeSlot ≠ s.curSlot := fun hc => ha (hc ▸ hmem)
    obtain ⟨hdue, hlt⟩ : _ ∧ now < due now s.curSlot d := due_other h.cur hds hne hrot
    exact Or.inr ⟨fun hc => ha (mem_of_mem_firedOf hc), hlt, d, by rw [if_neg ha, hd], hdue, rfl⟩

/-- The timers that a tick fires were alive. -/
theorem Holds.data_of_fired (h : Holds s L) (ha : a ∈ firedOf s.mem (L s.curSlot)) :
    ∃ d, data s.mem a = some d := by
  obtain ⟨d, hd, -⟩ := h.data_of_mem h.cur (mem_of_mem_firedOf ha)
  exact ⟨d, hd⟩

/-- **The tick hands out what is due**, if it leaves of the timers what it should. -/
theorem Holds.expires (h : Holds s L) (now : ℤ) (hcur : s'.curSlot = (s.curSlot + 1).tmod N)
    (hdata : ∀ a, data s'.mem a =
      if a ∈ L s.curSlot then turnAt s.mem a else data s.mem a) :
    (pending now s).Expires now (firedOf s.mem (L s.curSlot)) (pending (now + 1) s') where
  nodup := (h.nodup _ h.cur).filter _
  mem_iff := by
    intro a
    constructor
    · intro ha
      obtain ⟨d, hd⟩ := h.data_of_fired ha
      rcases h.turn_cases hd now with ⟨-, hdue⟩ | ⟨hna, -⟩
      · exact ⟨_, pending_eq_some.mpr ⟨d, hd, rfl⟩, hdue.le⟩
      · exact absurd ha hna
    · rintro ⟨t, ht, hle⟩
      obtain ⟨d, hd, rfl⟩ := pending_eq_some.mp ht
      rcases h.turn_cases hd now with ⟨ha, -⟩ | ⟨-, hlt, -⟩
      · exact ha
      · omega
  sorted := by
    -- all of them are due now, so their order does not matter
    have hnow : ∀ a ∈ firedOf s.mem (L s.curSlot), ∀ t, pending now s a = some t → t = now := by
      intro a ha t ht
      obtain ⟨d, hd, rfl⟩ := pending_eq_some.mp ht
      rcases h.turn_cases hd now with ⟨-, hdue⟩ | ⟨hna, -⟩
      · exact hdue
      · exact absurd ha hna
    refine List.pairwise_of_forall_mem_list fun a ha b hb t u ht hu => ?_
    rw [hnow a ha t ht, hnow b hb u hu]
  rest := by
    intro a
    rw [pending, hdata, hcur]
    cases hd : data s.mem a with
    | none =>
      have hnone : (if a ∈ L s.curSlot then turnAt s.mem a else none) = none := by
        rw [turnAt, hd, Option.bind_none, ite_self]
      rw [hnone, pending, hd, Option.map_none, Option.map_none, ite_self]
    | some d =>
      rcases h.turn_cases hd now with ⟨ha, -⟩ | ⟨hna, -, d', hd', hdue, -⟩
      · have hnone : turnAt s.mem a = none := Option.isNone_iff_eq_none.mp (List.mem_filter.mp ha).2
        rw [if_pos (mem_of_mem_firedOf ha), hnone, if_pos ha, Option.map_none]
      · rw [hd] at hd'
        rw [hd', if_neg hna, pending, hd, Option.map_some, Option.map_some, hdue]

/-- **`tick`** hands out the timers that are due, and the others are fired by the same
ticks as before. -/
theorem tick_spec (h : Holds s L) (hset : ∀ a d, data s.mem a = some d → d.cbFunc ≠ none)
    (now : ℤ) (env : σ) :
    ∃ s' fired L', tick s env = pure (s', fired.foldl (call s.mem) env, fired) ∧ Holds s' L' ∧
      (pending now s).Expires now fired (pending (now + 1) s') ∧
      ∀ a d, data s'.mem a = some d → d.cbFunc ≠ none := by
  have hcur := h.cur
  have hseg := h.seg s.curSlot hcur
  have hnd := h.nodup s.curSlot hcur
  have hseg₀ : Seg s.mem none (s.slots s.curSlot) ([] ++ L s.curSlot) none := hseg
  obtain ⟨s₁, hcode, hs₁⟩ := tickLoop_spec hcur hseg₀ hnd
    (fun a _ d hd => hset a d hd) env
  refine ⟨{ s₁ with curSlot := (s.curSlot + 1).tmod N }, firedOf s.mem (L s.curSlot),
    Function.update L s.curSlot (keptOf s.mem (L s.curSlot)), ?_, ?_,
    h.expires now rfl hs₁.data, fun a d' hd' => ?_⟩
  · rw [tick, slot_eq hcur, pure_bind, hseg.first, headOr_none, hcode, pure_bind]
    dsimp only
    rw [hs₁.curSlot]
  · refine h.changeSlot hcur (isSlot_next hcur) hs₁.slots hs₁.seg (hnd.filter _)
      (fun a ha => Or.inl (List.mem_of_mem_filter ha)) (fun a ha d hd => ?_) (fun a ha hna => ?_)
      fun a ha _ => hs₁.frame a ha
    -- a timer that stays has had its turn: one rotation less
    · have hal : a ∈ L s.curSlot := List.mem_of_mem_filter ha
      rw [hs₁.data, if_pos hal] at hd
      obtain ⟨d₁, hd₁, hturn⟩ := Option.bind_eq_some_iff.mp hd
      obtain ⟨hrot, hts, -⟩ := turn_some hturn
      exact ⟨hts.trans (h.slot _ hcur a hal d₁ hd₁).1, hrot⟩
    -- one that does not stay has been deleted
    · rw [← data_eq_none, hs₁.data, if_pos ha]
      by_contra hne
      exact hna (List.mem_filter.mpr ⟨ha, Option.isSome_iff_ne_none.mpr hne⟩)
  · rw [hs₁.data] at hd'
    split at hd'
    · obtain ⟨d, hd, hturn⟩ := Option.bind_eq_some_iff.mp hd'
      rw [(turn_some hturn).2.2]
      exact hset a d hd
    · exact hset a d' hd'

end TimeWheel

end Candcpp
