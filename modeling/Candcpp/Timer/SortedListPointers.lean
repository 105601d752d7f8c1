import Candcpp.Timer.SortedListRuns

/-!
# The pointers of the ascending timer list

Whether `head`, `tail` and the pointers of the timers lead to timers that exist
(`Candcpp.ListWorld.Grounded`). For `head` and for the timers they always do, as the
list is well linked (`Candcpp.ListWorld.Inv`). `tail` is another matter: `del_timer`
moves it, and makes it null with the last timer, but `tick` never touches it, not even
when it deletes the last timer (`Candcpp.SortedTimerList.tickLoop_tail`).

**So all pointers of all states of a run are grounded exactly if no tick deletes all
timers of a list that has some** (`Candcpp.ListWorld.run_grounded_iff`).
-/

namespace Candcpp

open Cpp DLink SortedTimerList

namespace ListWorld

variable {σ : Type} {w w' : ListWorld σ} {l : List Addr} {p : Addr} {env : σ}

/-- **No pointer dangles**: `head`, `tail` and the pointers of the timers on the list are null or
lead to a timer, and those of an empty list are null. -/
structure Grounded (w : ListWorld σ) : Prop where
  head : ∀ a, w.list.head = some a → ∃ t, w.list.mem a = some t
  tail : ∀ a, w.list.tail = some a → ∃ t, w.list.mem a = some t
  linked : ∀ x ∈ w.live, ∃ t, w.list.mem x = some t ∧
    (∀ a, t.prev = some a → ∃ u, w.list.mem a = some u) ∧
    ∀ a, t.next = some a → ∃ u, w.list.mem a = some u
  empty : w.live = [] → w.list.head = none ∧ w.list.tail = none

/-- A tick spares a timer, if there is one: that is not due yet. -/
def Spares (w : ListWorld σ) : ListOp σ → Prop
  | .tick cur => w.live = [] ∨ ∃ a ∈ w.live, cur < expireAt w.list.mem a
  | _ => True

/-- The pointers are grounded when the `tail` of an empty list is null. -/
theorem Inv.grounded (h : Inv w l) (htail : l = [] → w.list.tail = none) : Grounded w where
  head := fun a ha => by
    rw [h.owned.head] at ha
    exact h.owned.seg.alive (List.mem_of_head? ha)
  tail := fun a ha => by
    by_cases hl : l = []
    · rw [htail hl] at ha
      cases ha
    · rw [h.owned.tail hl] at ha
      exact h.owned.seg.alive (List.mem_of_getLast? ha)
  linked := fun x hx => by
    obtain ⟨l₁, l₂, rfl⟩ := List.append_of_mem (h.perm.mem_iff.mpr hx)
    obtain ⟨t, ht, hpv, hnx⟩ := h.owned.node
    refine ⟨t, ht, fun a ha => ?_, fun a ha => ?_⟩
    · rw [hpv] at ha
      exact h.owned.seg.alive (List.mem_append_left _ (List.mem_of_getLast? ha))
    · rw [hnx] at ha
      exact h.owned.seg.alive
        (List.mem_append_right _ (List.mem_cons_of_mem x (List.mem_of_head? ha)))
  empty := fun hlive => by
    obtain rfl : l = [] := (hlive ▸ h.perm).eq_nil
    exact ⟨h.owned.head, htail rfl⟩

/-- A list that holds a live timer is not empty. -/
theorem Inv.ne_nil (h : Inv w l) (hp : p ∈ w.live) : l ≠ [] := by
  rintro rfl
  exact absurd (h.perm.mem_iff.mpr hp) List.not_mem_nil

/-- Deleting the only timer makes `tail` null. -/
theorem delTimer_single {s s' : SortedTimerList σ} (h : Owned s [p])
    (hr : delTimer s (some p) = pure s') : s'.tail = none := by
  have hhead : s.head = some p := h.head
  have htail : s.tail = some p := h.tail (by simp)
  rw [delTimer, if_neg (by simp), if_pos ⟨hhead.symm, htail.symm⟩] at hr
  obtain ⟨m, -, hr⟩ := Exec.bind_eq_pure.mp hr
  obtain rfl := Exec.pure_inj.mp hr
  rfl

/-- A tick leaves `tail` as it is. -/
theorem tick_tail {cur : ℤ} {s : SortedTimerList σ} {r : SortedTimerList σ × σ × List Addr}
    (h : Owned s l) (hr : SortedTimerList.tick cur s env = pure r) : r.1.tail = s.tail := by
  rw [SortedTimerList.tick] at hr
  split_ifs at hr
  · obtain rfl := Exec.pure_inj.mp hr
    rfl
  · exact tickLoop_tail h hr

/-- A timer remains after a tick exactly if one has been spared. -/
theorem exists_live_of_tick {cur : ℤ} {l' out : List Addr} (h : Inv w l) (h' : Inv w' l')
    (hstep : (pending w.list.mem).Expires cur out (pending w'.list.mem)) :
    l' ≠ [] ↔ ∃ a ∈ w.live, cur < expireAt w.list.mem a := by
  constructor
  · intro hne
    obtain ⟨a, ha⟩ := List.exists_mem_of_ne_nil l' hne
    obtain ⟨t, ht⟩ := h'.owned.seg.alive ha
    have hat : pending w'.list.mem a = some t.expire := by rw [pending, ht, Option.map_some]
    obtain ⟨u, hu, heq⟩ := Option.map_eq_some_iff.mp (hstep.of_rest hat)
    refine ⟨a, h.perm.mem_iff.mp (h.owned.own a u hu), ?_⟩
    rw [expireAt_some hu, heq]
    exact hstep.lt_of_rest hat
  · rintro ⟨a, ha, hlt⟩ rfl
    obtain ⟨t, ht⟩ := h.owned.seg.alive (h.perm.mem_iff.mpr ha)
    have hat : pending w.list.mem a = some t.expire := by rw [pending, ht, Option.map_some]
    rw [expireAt_some ht] at hlt
    have hnot : a ∉ out := fun hmem => by
      obtain ⟨u, hu, hle⟩ := (hstep.mem_iff a).mp hmem
      rw [← Option.some.inj (hat.symm.trans hu)] at hle
      exact absurd hlt (not_lt.mpr hle)
    have hrest : pending w'.list.mem a = some t.expire := by rw [hstep.rest, if_neg hnot, hat]
    obtain ⟨u, hu, -⟩ := Option.map_eq_some_iff.mp hrest
    exact absurd (h'.owned.own a u hu) List.not_mem_nil

/-- **An operation makes the `tail` of an empty list null**, unless it is a tick that spares no
timer. -/
theorem Inv.tail_step {op : ListOp σ} {l' out : List Addr} (h : Inv w l)
    (htail : l = [] → w.list.tail = none) (hop : Allowed w op) (hr : exec w op = pure w')
    (h' : Inv w' l')
    (hstep : Pending.Step (pending w.list.mem) (meaning op) out (pending w'.list.mem))
    (hspares : Spares w op) : l' = [] → w'.list.tail = none := by
  intro hnil
  cases op with
  | addTimer p userData expire cbFunc =>
    obtain ⟨s', -, hr⟩ := Exec.bind_eq_pure.mp hr
    obtain rfl := Exec.pure_inj.mp hr
    exact absurd hnil (h'.ne_nil List.mem_cons_self)
  | adjustTimer p expire =>
    obtain ⟨m, -, hr⟩ := Exec.bind_eq_pure.mp hr
    obtain ⟨s', -, hr⟩ := Exec.bind_eq_pure.mp hr
    obtain rfl := Exec.pure_inj.mp hr
    exact absurd hnil (h'.ne_nil hop.1)
  | delTimer p =>
    obtain ⟨s', hdel, hr⟩ := Exec.bind_eq_pure.mp hr
    obtain rfl := Exec.pure_inj.mp hr
    -- it was the only timer
    have hlive : w.live.erase p = [] := (hnil ▸ h'.perm).nil_eq.symm
    have hperm : l.Perm [p] := h.perm.trans ((List.perm_cons_erase hop).trans (by rw [hlive]))
    have hown := h.owned
    rw [List.perm_singleton.mp hperm] at hown
    exact delTimer_single hown hdel
  | tick cur =>
    obtain ⟨r, htick, hr⟩ := Exec.bind_eq_pure.mp hr
    obtain rfl := Exec.pure_inj.mp hr
    -- the list was empty before, or is not empty afterwards
    rcases hspares with hlive | hspared
    · exact (tick_tail h.owned htick).trans (htail (hlive ▸ h.perm).eq_nil)
    · cases hstep with
      | strike hexp => exact absurd hnil ((exists_live_of_tick h h' hexp).mpr hspared)

/-- **A tick that spares no timer** leaves the `tail` of the list that it has emptied. -/
theorem not_grounded_of_tick {op : ListOp σ} (h : Inv w l) (hop : Allowed w op)
    (hr : exec w op = pure w') (hspares : ¬ Spares w op) : ¬ Grounded w' := by
  intro hgr
  obtain ⟨w'', l', out, hr', h', hstep⟩ := h.step op hop
  obtain rfl := Exec.pure_unique hr hr'
  cases op with
  | tick cur =>
    obtain ⟨hlive, hspared⟩ := not_or.mp hspares
    obtain ⟨r, htick, hr⟩ := Exec.bind_eq_pure.mp hr
    obtain rfl := Exec.pure_inj.mp hr
    have hnil : l' = [] := by
      cases hstep with
      | strike hexp => exact not_not.mp fun hne => hspared ((exists_live_of_tick h h' hexp).mp hne)
    have hne : l ≠ [] := fun hl => hlive (hl ▸ h.perm).nil_eq.symm
    have htail := (hgr.empty (hnil ▸ h'.perm).nil_eq.symm).2
    rw [show _ = w.list.tail from tick_tail h.owned htick, h.owned.tail hne,
      List.getLast?_eq_none_iff] at htail
    exact hne htail
  | _ => exact hspares trivial

/-- The states of a run keep the invariant. -/
theorem run_inv {r : List (ListWorld σ × ListOp σ)}
    (hr : (program env).lts.Run { list := .empty, env := env, live := [] } r w) :
    ∀ t ∈ Lts.visited r w, ∃ l, Inv t l := by
  refine hr.invariant ⟨[], inv_init env⟩ ?_
  rintro q - t ⟨l, h⟩ hstep
  obtain ⟨w', l', -, hexec, h', -⟩ := h.step q.2 hstep.1
  exact ⟨l', Exec.pure_unique hexec hstep.2 ▸ h'⟩

/-- **In a run no pointer dangles**, and those of an empty list are null, exactly if no tick
deletes all timers of a list that has some. -/
theorem run_grounded_iff {w₀ : ListWorld σ} {r : List (ListWorld σ × ListOp σ)}
    (hinit : (program env).init w₀) (hr : (program env).lts.Run w₀ r w) :
    (∀ t ∈ Lts.visited r w, Grounded t) ↔ ∀ q ∈ r, Spares q.1 q.2 := by
  obtain rfl : w₀ = _ := hinit
  constructor
  · rintro hgr ⟨t, op⟩ hq
    by_contra hspares
    obtain ⟨l, h⟩ := run_inv hr t (Lts.mem_visited hq _)
    obtain ⟨t', hstep, ht'⟩ := hr.next hq
    exact not_grounded_of_tick h hstep.1 hstep.2 hspares (hgr t' ht')
  · intro hspares t ht
    have hinv : ∀ t ∈ Lts.visited r w, ∃ l, Inv t l ∧ (l = [] → t.list.tail = none) := by
      refine hr.invariant ⟨[], inv_init env, fun _ => rfl⟩ ?_
      rintro q hq t ⟨l, h, htail⟩ hstep
      obtain ⟨w', l', out, hexec, h', hmeans⟩ := h.step q.2 hstep.1
      obtain rfl := Exec.pure_unique hexec hstep.2
      exact ⟨l', h', h.tail_step htail hstep.1 hexec h' hmeans (hspares q hq)⟩
    obtain ⟨l, h, htail⟩ := hinv t ht
    exact h.grounded htail

/-- A tick fires the first of two timers. -/
theorem run_grounded_iff_two : ∃ r w, (program ()).lts.Run
      { list := .empty, env := (), live := [] } r w ∧ .tick 25 ∈ r.map Prod.snd ∧
    ∀ t ∈ Lts.visited r w, Grounded t := by
  have h₁ : (program ()).lts.Run { list := .empty, env := (), live := [] } _ _ :=
    Lts.Run.nil.snoc (a := ListOp.addTimer 7 0 30 fun _ e => e) ⟨rfl, rfl⟩
  have h₂ := h₁.snoc (a := ListOp.addTimer 8 0 20 fun _ e => e) ⟨rfl, rfl⟩
  obtain ⟨l, hinv⟩ := run_inv h₂ _ (Lts.last_mem_visited _ _)
  obtain ⟨w, -, -, hexec, -, -⟩ := hinv.step (.tick 25) trivial
  have h₃ := h₂.snoc (a := ListOp.tick 25) ⟨trivial, hexec⟩
  refine ⟨_, w, h₃, by simp, (run_grounded_iff rfl h₃).mpr ?_⟩
  simp only [List.nil_append, List.cons_append, List.forall_mem_cons]
  exact ⟨trivial, trivial, .inr ⟨7, by simp, by decide⟩, List.forall_mem_nil _⟩

/-- A tick deletes the only timer, and `tail` still leads to it. -/
theorem not_run_grounded : ¬ ∀ (w₀ : ListWorld Unit) (r : List (ListWorld Unit × ListOp Unit))
    (w : ListWorld Unit), (program ()).init w₀ → (program ()).lts.Run w₀ r w →
      ∀ t ∈ Lts.visited r w, Grounded t := by
  intro h
  have h₁ : (program ()).lts.Run { list := .empty, env := (), live := [] } _ _ :=
    Lts.Run.nil.snoc (a := ListOp.addTimer 7 0 30 fun _ e => e) ⟨rfl, rfl⟩
  obtain ⟨l, hinv⟩ := run_inv h₁ _ (Lts.last_mem_visited _ _)
  obtain ⟨w, -, -, hexec, -, -⟩ := hinv.step (.tick 40) trivial
  have h₂ := h₁.snoc (a := ListOp.tick 40) ⟨trivial, hexec⟩
  have hgr := h _ _ w rfl h₂ w (Lts.last_mem_visited _ _)
  refine not_grounded_of_tick hinv (show Allowed _ (.tick 40) from trivial) hexec ?_ hgr
  rintro (hlive | ⟨a, ha, hlt⟩)
  · cases hlive
  · obtain rfl := List.mem_singleton.mp ha
    exact absurd hlt (by decide)

end ListWorld

end Candcpp
