import Candcpp.Lts
import Candcpp.Timer.Wheel

/-!
# Every run of the time wheel

A client of `Candcpp.TimeWheel` adds timers and sets their callbacks, deletes timers,
and calls `tick` once in each slot interval. What it owes the wheel is
`Candcpp.WheelWorld.Allowed`: it deletes only timers that it has added, and that have
not been deleted or fired.

The world keeps a record of every timer ever added: when it was added, in ticks,
whether it has been deleted, and during which ticks its callback has been invoked.

| what is proved of every run | theorem |
|---|---|
| **a timer is fired by the tick that its timeout says, and by no other** | `Candcpp.WheelWorld.reachable_onTime` |
| **the slots are well linked and partition the live timers** | `Candcpp.WheelWorld.reachable_partitioned` |

Both follow from `Candcpp.WheelWorld.Inv`, which says of each live timer in which tick
the wheel is going to fire it.
-/

namespace Candcpp

open Cpp DLink TimeWheel

/-- What the client knows of a timer it has added. -/
structure TimerRec where
  /-- The pointer `add_timer` has returned. -/
  addr : Addr
  /-- The argument of `add_timer`. -/
  timeout : ℤ
  /-- The number of ticks before it was added. -/
  born : ℤ
  /-- Whether it has been deleted. -/
  deleted : Bool
  /-- The numbers of the ticks that have invoked its callback. -/
  fired : List ℤ

namespace TimerRec

/-- A timer that has been neither deleted nor fired. -/
def Live (r : TimerRec) : Prop := r.deleted = false ∧ r.fired = []

instance (r : TimerRec) : Decidable r.Live := inferInstanceAs (Decidable (_ ∧ _))

/-- The tick whose turn it is to invoke the callback: the `k + 1`-st after the timer was
added, where `k` is the timeout in slot intervals, and at least `1`. -/
def deadline (r : TimerRec) : ℤ := r.born + ticksOf r.timeout

/-- The timer at `p` has been deleted. -/
def delete (p : Addr) (r : TimerRec) : TimerRec :=
  if r.Live ∧ r.addr = p then { r with deleted := true } else r

/-- The tick numbered `n` has invoked these callbacks. -/
def fire (n : ℤ) (fired : List Addr) (r : TimerRec) : TimerRec :=
  if r.Live then { r with fired := List.replicate (fired.count r.addr) n } else r

variable {r : TimerRec} {p : Addr} {n : ℤ} {fired : List Addr}

theorem live_delete : (r.delete p).Live ↔ r.Live ∧ r.addr ≠ p := by
  rw [delete]
  split
  · rename_i h
    simp [Live, h.2]
  · rename_i h
    constructor
    · intro hl
      exact ⟨hl, fun hp => h ⟨hl, hp⟩⟩
    · exact And.left

theorem addr_delete : (r.delete p).addr = r.addr := by
  rw [delete]
  split <;> rfl

theorem deadline_delete : (r.delete p).deadline = r.deadline := by
  rw [delete]
  split <;> rfl

theorem live_fire : (r.fire n fired).Live ↔ r.Live ∧ r.addr ∉ fired := by
  rw [fire]
  split
  · rename_i h
    simp [Live, h.1, h.2, List.count_eq_zero]
  · rename_i h
    constructor
    · intro hl
      exact absurd hl h
    · exact fun hl => absurd hl.1 h

theorem addr_fire : (r.fire n fired).addr = r.addr := by
  rw [fire]
  split <;> rfl

theorem deadline_fire : (r.fire n fired).deadline = r.deadline := by
  rw [fire]
  split <;> rfl

end TimerRec

/-- A wheel, the environment of its callbacks, the timers added so far, and the number
of ticks so far. -/
structure WheelWorld (σ : Type) where
  wheel : TimeWheel σ
  env : σ
  timers : List TimerRec
  ticks : ℤ

/-- The operations of a client. -/
inductive WheelOp (σ : Type) where
  /-- `add_timer(timeout)`, where `new` returns the address `p`; the two public fields of
  the timer are set. -/
  | addTimer (p : Addr) (timeout : ℤ) (userData : ℕ) (cbFunc : ℕ → σ → σ) : WheelOp σ
  /-- `del_timer`. -/
  | delTimer (p : Addr) : WheelOp σ
  /-- `tick`. -/
  | tick : WheelOp σ

namespace WheelWorld

variable {σ : Type}

/-- What the client owes the wheel: a new timer is not at the address of another one,
and only live timers are deleted. -/
def Allowed (w : WheelWorld σ) : WheelOp σ → Prop
  | .addTimer p _ _ _ => w.wheel.mem p = none
  | .delTimer p => ∃ r ∈ w.timers, r.Live ∧ r.addr = p
  | .tick => True

/-- An operation, executed. -/
def exec (w : WheelWorld σ) : WheelOp σ → Exec (WheelWorld σ)
  | .addTimer p timeout userData cbFunc => do
    let (s, timer) ← addTimer w.wheel p timeout
    match timer with
    | none => pure { w with wheel := s }
    | some a => do
      let m ← s.mem.modify (some a) fun t => { t with userData := userData, cbFunc := some cbFunc }
      let r := { addr := a, timeout := timeout, born := w.ticks, deleted := false, fired := [] }
      pure { w with wheel := { s with mem := m }, timers := r :: w.timers }
  | .delTimer p => do
    let s ← delTimer w.wheel (some p)
    pure { w with wheel := s, timers := w.timers.map (TimerRec.delete p) }
  | .tick => do
    let (s, env, fired) ← TimeWheel.tick w.wheel w.env
    pure { wheel := s, env := env, timers := w.timers.map (TimerRec.fire w.ticks fired),
           ticks := w.ticks + 1 }

/-- The client starts with an empty wheel. -/
def program (env : σ) : Program (WheelWorld σ) (WheelOp σ) where
  init := fun w => w = { wheel := .empty, env := env, timers := [], ticks := 0 }
  allowed := Allowed
  exec := exec

/-! ### The invariant -/

/-- **On time**: the callback of a timer has been invoked during the tick of its
deadline, once that is over, and not at all if the timer was deleted before. -/
def OnTime (ticks : ℤ) (r : TimerRec) : Prop :=
  r.fired = if r.deleted then [] else if r.deadline < ticks then [r.deadline] else []

/-- **The invariant of the runs**: the wheel is going to fire each live timer at its
deadline, and holds no others. -/
structure Inv (w : WheelWorld σ) (L : ℤ → List Addr) : Prop where
  holds : Holds w.wheel L
  set : ∀ a d, data w.wheel.mem a = some d → d.cbFunc ≠ none
  pending : ∀ r ∈ w.timers, r.Live → pending w.ticks w.wheel r.addr = some r.deadline
  own : ∀ a t, TimeWheel.pending w.ticks w.wheel a = some t → ∃ r ∈ w.timers, r.Live ∧ r.addr = a
  distinct : w.timers.Pairwise fun r r' => r.Live → r'.Live → r.addr ≠ r'.addr
  onTime : ∀ r ∈ w.timers, OnTime w.ticks r

variable {w w' : WheelWorld σ} {L : ℤ → List Addr} {p : Addr} {env : σ} {r : TimerRec} {ticks : ℤ}

theorem inv_init (env : σ) : Inv { wheel := .empty, env := env, timers := [], ticks := 0 }
    fun _ => [] :=
  ⟨holds_empty, fun _ _ h => (nomatch h), by simp, fun _ _ h => (nomatch h), .nil, by simp⟩

/-- The deadline of a live timer is not over. -/
theorem OnTime.le_deadline (h : OnTime ticks r) (hr : r.Live) : ticks ≤ r.deadline := by
  rw [OnTime, hr.1, hr.2] at h
  by_contra hlt
  rw [if_neg (by simp), if_pos (not_le.mp hlt)] at h
  cases h

theorem OnTime.delete (h : OnTime ticks r) (p : Addr) : OnTime ticks (r.delete p) := by
  rw [TimerRec.delete]
  split
  · rename_i hr
    rw [OnTime, if_pos rfl]
    exact hr.1.2
  · exact h

/-- A timer that is fired at its deadline, or is not due, stays on time. -/
theorem OnTime.fire (h : OnTime ticks r) {fired : List Addr} (hnd : fired.Nodup)
    (hmem : r.Live → (r.addr ∈ fired ↔ r.deadline ≤ ticks)) :
    OnTime (ticks + 1) (r.fire ticks fired) := by
  by_cases hr : r.Live
  · have hle := h.le_deadline hr
    rw [OnTime, TimerRec.deadline_fire, TimerRec.fire, if_pos hr]
    dsimp only
    rw [hr.1, if_neg (by simp)]
    by_cases hf : r.addr ∈ fired
    · have hdue := (hmem hr).mp hf
      rw [List.count_eq_one_of_mem hnd hf, if_pos (by omega), show r.deadline = ticks by omega]
      rfl
    · have hdue : ¬r.deadline ≤ ticks := fun hc => hf ((hmem hr).mpr hc)
      rw [List.count_eq_zero_of_not_mem hf, if_neg (by omega)]
      rfl
  · rw [TimerRec.fire, if_neg hr]
    rw [OnTime] at h ⊢
    split at h
    · rename_i hdel
      rw [h, if_pos hdel]
    · rename_i hdel
      split at h
      · rename_i hlt
        rw [h, if_neg hdel, if_pos (by omega)]
      · exact absurd ⟨by simpa using hdel, h⟩ hr

/-! ### One step -/

/-- A live timer is at the address of a timer of the wheel. -/
theorem Inv.alive (h : Inv w L) (hr : r ∈ w.timers) (hl : r.Live) :
    ∃ d, data w.wheel.mem r.addr = some d := by
  obtain ⟨d, hd, -⟩ := pending_eq_some.mp (h.pending r hr hl)
  exact ⟨d, hd⟩

/-- **A timer is added.** -/
theorem Inv.addTimer (h : Inv w L) (hp : w.wheel.mem p = none) (timeout : ℤ) (userData : ℕ)
    (cbFunc : ℕ → σ → σ) :
    ∃ w' L', exec w (.addTimer p timeout userData cbFunc) = pure w' ∧ Inv w' L' := by
  by_cases hneg : timeout < 0
  · refine ⟨w, L, ?_, h⟩
    rw [exec, TimeWheel.addTimer, if_pos hneg, pure_bind]
  obtain ⟨s, L', hcode, hholds, hcur, hdata⟩ := addTimer_spec h.holds hp (not_lt.mp hneg)
  have hnew := hdata p
  rw [if_pos rfl] at hnew
  obtain ⟨t, ht, htd⟩ := data_eq_some.mp hnew
  -- the caller sets the callback after `add_timer` has returned the timer
  obtain ⟨t', ht'⟩ : ∃ t', t' = { t with userData := userData, cbFunc := some cbFunc } := ⟨_, rfl⟩
  have hself : data (s.mem.set p t') p = some t'.toTwData := data_some (Mem.set_self _ _ _)
  have hother : ∀ a, a ≠ p → data (s.mem.set p t') a = data w.wheel.mem a := fun a ha => by
    rw [data_congr (Mem.set_of_ne _ _ ha), hdata, if_neg ha]
  have hdue : due w.ticks s.curSlot t'.toTwData = w.ticks + ticksOf timeout := by
    rw [ht', ← due_create (σ := σ) h.holds.cur, ← htd, hcur]
    rfl
  -- the address was free, so that no live timer is there
  have hne : ∀ r ∈ w.timers, r.Live → r.addr ≠ p := by
    rintro r hr hl rfl
    obtain ⟨d, hd⟩ := h.alive hr hl
    rw [data_eq_none.mpr hp] at hd
    cases hd
  have hpend : ∀ a, a ≠ p → TimeWheel.pending w.ticks { s with mem := s.mem.set p t' } a =
      TimeWheel.pending w.ticks w.wheel a := fun a ha => by
    rw [TimeWheel.pending, TimeWheel.pending, hother a ha, hcur]
  refine ⟨{ w with
      wheel := { s with mem := s.mem.set p t' },
      timers := { addr := p, timeout := timeout, born := w.ticks, deleted := false, fired := [] } ::
        w.timers }, L', ?_, ⟨?_, ?_, ?_, ?_, ?_, ?_⟩⟩
  · rw [exec, hcode, pure_bind]
    dsimp only
    rw [Mem.modify_some ht, pure_bind, ht']
  · exact hholds.setData ht (by rw [ht']) (by rw [ht']) (by rw [ht']) (by rw [ht'])
  · intro a d hd
    change data (s.mem.set p t') a = some d at hd
    by_cases ha : a = p
    · rw [ha, hself, ht'] at hd
      rw [← Option.some.inj hd]
      simp
    · rw [hother a ha] at hd
      exact h.set a d hd
  · intro r hr hl
    rcases List.mem_cons.mp hr with rfl | hr
    · exact pending_eq_some.mpr ⟨_, hself, hdue⟩
    · change TimeWheel.pending w.ticks { s with mem := s.mem.set p t' } r.addr = _
      rw [hpend _ (hne r hr hl)]
      exact h.pending r hr hl
  · intro a t hat
    by_cases ha : a = p
    · exact ⟨_, List.mem_cons_self, ⟨rfl, rfl⟩, ha.symm⟩
    · change TimeWheel.pending w.ticks { s with mem := s.mem.set p t' } a = some t at hat
      rw [hpend a ha] at hat
      obtain ⟨r, hr, hl, hra⟩ := h.own a t hat
      exact ⟨r, List.mem_cons_of_mem _ hr, hl, hra⟩
  · exact List.pairwise_cons.mpr ⟨fun r hr _ hl => (hne r hr hl).symm, h.distinct⟩
  · intro r hr
    rcases List.mem_cons.mp hr with rfl | hr
    · have hpos := ticksOf_pos timeout
      rw [OnTime, if_neg (by simp), if_neg (by dsimp only [TimerRec.deadline]; omega)]
    · exact h.onTime r hr

/-- **A live timer is deleted.** -/
theorem Inv.delTimer (h : Inv w L) (hp : ∃ r ∈ w.timers, r.Live ∧ r.addr = p) :
    ∃ w' L', exec w (.delTimer p) = pure w' ∧ Inv w' L' := by
  obtain ⟨r₀, hr₀, hl₀, rfl⟩ := hp
  obtain ⟨d₀, hd₀⟩ := h.alive hr₀ hl₀
  obtain ⟨s, L', hcode, hholds, hcur, hdata⟩ := delTimer_spec h.holds hd₀
  -- the other timers are due when they were due before
  have hpend : ∀ a, TimeWheel.pending w.ticks s a =
      if a = r₀.addr then none else TimeWheel.pending w.ticks w.wheel a := fun a => by
    rw [TimeWheel.pending, TimeWheel.pending, hdata, hcur]
    split <;> rfl
  refine ⟨{ w with wheel := s, timers := w.timers.map (TimerRec.delete r₀.addr) }, L', ?_,
    hholds, fun a d hd => ?_, fun r hr hl => ?_, fun a t hat => ?_, ?_, fun r hr => ?_⟩
  · rw [exec, hcode, pure_bind]
  · rw [hdata] at hd
    split at hd
    · cases hd
    · exact h.set a d hd
  · obtain ⟨r₁, hr₁, rfl⟩ := List.mem_map.mp hr
    obtain ⟨hl, hne⟩ := TimerRec.live_delete.mp hl
    rw [TimerRec.addr_delete, TimerRec.deadline_delete, hpend, if_neg hne]
    exact h.pending r₁ hr₁ hl
  · rw [hpend] at hat
    split at hat
    · cases hat
    · rename_i hne
      obtain ⟨r, hr, hl, rfl⟩ := h.own a t hat
      exact ⟨r.delete r₀.addr, List.mem_map_of_mem hr, TimerRec.live_delete.mpr ⟨hl, hne⟩,
        TimerRec.addr_delete⟩
  · refine List.pairwise_map.mpr (h.distinct.imp fun {r r'} hrr hl hl' => ?_)
    rw [TimerRec.addr_delete, TimerRec.addr_delete]
    exact hrr (TimerRec.live_delete.mp hl).1 (TimerRec.live_delete.mp hl').1
  · obtain ⟨r₁, hr₁, rfl⟩ := List.mem_map.mp hr
    exact (h.onTime r₁ hr₁).delete r₀.addr

/-- **The wheel ticks.** It invokes the callbacks of live timers only. -/
theorem Inv.tick (h : Inv w L) :
    ∃ s env fired L', TimeWheel.tick w.wheel w.env = pure (s, env, fired) ∧
      (∀ a ∈ fired, ∃ r ∈ w.timers, r.Live ∧ r.addr = a) ∧
      Inv { wheel := s, env := env, timers := w.timers.map (TimerRec.fire w.ticks fired),
            ticks := w.ticks + 1 } L' := by
  obtain ⟨s, fired, L', hcode, hholds, hexp, hset⟩ := tick_spec h.holds h.set w.ticks w.env
  refine ⟨s, _, fired, L', hcode, fun a ha => ?_,
    hholds, hset, fun r hr hl => ?_, fun a t hat => ?_, ?_, fun r hr => ?_⟩
  · obtain ⟨t, ht, -⟩ := (hexp.mem_iff a).mp ha
    exact h.own a t ht
  · obtain ⟨r₁, hr₁, rfl⟩ := List.mem_map.mp hr
    obtain ⟨hl, hna⟩ := TimerRec.live_fire.mp hl
    rw [TimerRec.addr_fire, TimerRec.deadline_fire]
    dsimp only
    rw [hexp.rest, if_neg hna]
    exact h.pending r₁ hr₁ hl
  · dsimp only at hat
    -- what is still on the wheel has not been fired
    have hna : a ∉ fired := fun hc => by
      rw [hexp.rest, if_pos hc] at hat
      cases hat
    obtain ⟨r, hr, hl, rfl⟩ := h.own a t (hexp.of_rest hat)
    exact ⟨r.fire w.ticks fired, List.mem_map_of_mem hr, TimerRec.live_fire.mpr ⟨hl, hna⟩,
      TimerRec.addr_fire⟩
  · refine List.pairwise_map.mpr (h.distinct.imp fun {r r'} hrr hl hl' => ?_)
    rw [TimerRec.addr_fire, TimerRec.addr_fire]
    exact hrr (TimerRec.live_fire.mp hl).1 (TimerRec.live_fire.mp hl').1
  · obtain ⟨r₁, hr₁, rfl⟩ := List.mem_map.mp hr
    refine (h.onTime r₁ hr₁).fire hexp.nodup fun hl => ?_
    rw [hexp.mem_iff, h.pending r₁ hr₁ hl]
    simp

/-- **An allowed operation** returns and keeps the invariant. -/
theorem Inv.step (h : Inv w L) (op : WheelOp σ) (hop : Allowed w op) :
    ∃ w' L', exec w op = pure w' ∧ Inv w' L' := by
  cases op with
  | addTimer p timeout userData cbFunc => exact h.addTimer hop timeout userData cbFunc
  | delTimer p => exact h.delTimer hop
  | tick =>
    obtain ⟨s, env, fired, L', hcode, -, hinv⟩ := h.tick
    refine ⟨_, L', ?_, hinv⟩
    rw [exec, hcode, pure_bind]

theorem reachable_inv (h : (program env).Reachable w) :
    (∃ L, Inv w L) ∧ ∀ op, Allowed w op → ∃ w', exec w op = pure w' := by
  refine Program.safe (P := program env) (I := fun w => ∃ L, Inv w L)
    (fun w hw => ⟨_, hw ▸ inv_init env⟩) (fun w op hl hop => ?_) h
  obtain ⟨L, hL⟩ := hl
  obtain ⟨w', L', hw', hinv⟩ := hL.step op hop
  exact ⟨w', hw', L', hinv⟩

/-! ### What the client sees -/

/-- **Every timer is fired on time.** In every run, the callback of a timer that was never
deleted has been invoked exactly once if the tick of its deadline is over, and not
at all before; that of a deleted one has not been invoked. The callbacks that the
next tick invokes are those of live timers, and every operation that the client may
ask for returns. -/
theorem reachable_onTime (h : (program env).Reachable w) :
    (∀ r ∈ w.timers, OnTime w.ticks r) ∧
      (∃ s env' fired, TimeWheel.tick w.wheel w.env = pure (s, env', fired) ∧
        ∀ a ∈ fired, ∃ r ∈ w.timers, r.Live ∧ r.addr = a) ∧
      ∀ op, Allowed w op → ∃ w', exec w op = pure w' := by
  obtain ⟨⟨L, hL⟩, hrun⟩ := reachable_inv h
  obtain ⟨s, env', fired, -, hcode, hfired, -⟩ := hL.tick
  exact ⟨hL.onTime, ⟨s, env', fired, hcode, hfired⟩, hrun⟩

/-- A wheel to which a timer of `125` seconds has been added. -/
theorem reachable_onTime_add :
    ∃ w : WheelWorld Unit, w.timers.map TimerRec.deadline = [125] ∧
      (∀ r ∈ w.timers, OnTime w.ticks r) ∧
      (∃ s env' fired, TimeWheel.tick w.wheel w.env = pure (s, env', fired) ∧
        ∀ a ∈ fired, ∃ r ∈ w.timers, r.Live ∧ r.addr = a) ∧
      ∀ op, Allowed w op → ∃ w', exec w op = pure w' := by
  have h₁ : (program ()).Reachable _ := .step (a := .addTimer 7 125 0 fun _ e => e) (.init rfl)
    ⟨rfl, rfl⟩
  exact ⟨_, by decide, reachable_onTime h₁⟩

/-- **A well linked wheel**: the slots hold the lists `L`, linked back one by one, of
timers that are marked with their slot; these partition the live timers. -/
structure Partitioned (w : WheelWorld σ) (L : ℤ → List Addr) : Prop where
  cur : 0 ≤ w.wheel.curSlot ∧ w.wheel.curSlot < N
  dll : ∀ i, IsSlot i → IsDll w.wheel.mem (w.wheel.slots i) (L i)
  nodup : ∀ i, IsSlot i → (L i).Nodup
  slot : ∀ i, IsSlot i → ∀ a ∈ L i, ∃ t, w.wheel.mem a = some t ∧ t.timeSlot = i ∧ 0 ≤ t.rotation
  disjoint : ∀ i j, IsSlot i → IsSlot j → i ≠ j → (L i).Disjoint (L j)
  live : ∀ a, (∃ i, IsSlot i ∧ a ∈ L i) ↔ ∃ r ∈ w.timers, r.Live ∧ r.addr = a
  distinct : w.timers.Pairwise fun r r' => r.Live → r'.Live → r.addr ≠ r'.addr

theorem Inv.partitioned (h : Inv w L) : Partitioned w L where
  cur := h.holds.cur
  dll := fun i hi => (h.holds.seg i hi).isDll
  nodup := h.holds.nodup
  slot := by
    intro i hi a ha
    obtain ⟨d, hd, hds, hrot⟩ := h.holds.data_of_mem hi ha
    obtain ⟨t, ht, rfl⟩ := data_eq_some.mp hd
    exact ⟨t, ht, hds, hrot⟩
  disjoint := by
    intro i j hi hj hne a hai haj
    obtain ⟨d, hd, hds, -⟩ := h.holds.data_of_mem hi hai
    exact hne (hds.symm.trans (h.holds.slot j hj a haj d hd).1)
  live := by
    intro a
    constructor
    · rintro ⟨i, hi, ha⟩
      obtain ⟨d, hd, -⟩ := h.holds.data_of_mem hi ha
      exact h.own a _ (pending_eq_some.mpr ⟨d, hd, rfl⟩)
    · rintro ⟨r, hr, hl, rfl⟩
      obtain ⟨d, hd⟩ := h.alive hr hl
      exact ⟨d.timeSlot, h.holds.own _ d hd⟩
  distinct := h.distinct

/-- **Every run keeps the wheel well linked**, and every operation that the client may
ask for returns. -/
theorem reachable_partitioned (h : (program env).Reachable w) :
    (∃ L, Partitioned w L) ∧ ∀ op, Allowed w op → ∃ w', exec w op = pure w' := by
  obtain ⟨⟨L, hL⟩, hrun⟩ := reachable_inv h
  exact ⟨⟨L, hL.partitioned⟩, hrun⟩

/-- A wheel with two timers in one slot, one of which has a turn to wait. -/
theorem reachable_partitioned_two :
    ∃ w : WheelWorld Unit, w.wheel.slots 5 = some 8 ∧ (∃ L, Partitioned w L) ∧
      ∀ op, Allowed w op → ∃ w', exec w op = pure w' := by
  have h₁ : (program ()).Reachable _ := .step (a := .addTimer 7 65 0 fun _ e => e) (.init rfl)
    ⟨rfl, rfl⟩
  have h₂ : (program ()).Reachable _ := .step (a := .addTimer 8 5 0 fun _ e => e) h₁ ⟨rfl, rfl⟩
  exact ⟨_, rfl, reachable_partitioned h₂⟩

end WheelWorld

end Candcpp
