import Candcpp.Lts
import Candcpp.Timer.SortedList

/-!
# Every run of the ascending timer list

A client of `Candcpp.SortedTimerList` creates timers and adds them, raises the
`expire` of a timer and has it adjusted, deletes timers, and calls `tick` when it
likes. What it owes the list is `Candcpp.ListWorld.Allowed`: it does not touch a
timer that has been deleted or fired, and it never lowers an `expire`. Besides
the list the world records the timers that are *live* by this history alone –
added, and not yet deleted or fired.

`Candcpp.ListWorld.reachable_wellLinked` is the invariant over all runs: the list is
well linked in both directions, ascending, and holds the live timers; and no
operation the client may ask for dereferences a null or dangling pointer, or
hangs. `Candcpp.ListWorld.Inv.step` also says what the operations mean: on the
timers in memory they are the operations of `Candcpp.Pending`.
-/

namespace Candcpp

open Cpp DLink SortedTimerList

/-- A list, the environment of its callbacks, and the timers added and not yet
deleted or fired. -/
structure ListWorld (σ : Type) where
  list : SortedTimerList σ
  env : σ
  live : List Addr

/-- The operations of a client. -/
inductive ListOp (σ : Type) where
  /-- `new util_timer` at the address `p`, and `add_timer`. -/
  | addTimer (p : Addr) (userData : ℕ) (expire : ℤ) (cbFunc : ℕ → σ → σ) : ListOp σ
  /-- The `expire` of the timer is set, and `adjust_timer`. -/
  | adjustTimer (p : Addr) (expire : ℤ) : ListOp σ
  /-- `del_timer`. -/
  | delTimer (p : Addr) : ListOp σ
  /-- `tick`, when the clock reads `cur`. -/
  | tick (cur : ℤ) : ListOp σ

namespace ListWorld

variable {σ : Type}

/-- What the client owes the list: a new timer is not at the address of a live one,
the other operations are on live timers, and no `expire` is lowered. -/
def Allowed (w : ListWorld σ) : ListOp σ → Prop
  | .addTimer p _ _ _ => w.list.mem p = none
  | .adjustTimer p expire => p ∈ w.live ∧ expireAt w.list.mem p ≤ expire
  | .delTimer p => p ∈ w.live
  | .tick _ => True

/-- An operation, executed. -/
def exec (w : ListWorld σ) : ListOp σ → Exec (ListWorld σ)
  | .addTimer p userData expire cbFunc => do
    let m := w.list.mem.set p (.create userData expire cbFunc)
    let s ← addTimer { w.list with mem := m } (some p)
    pure { w with list := s, live := p :: w.live }
  | .adjustTimer p expire => do
    let m ← w.list.mem.modify (some p) fun t => { t with expire := expire }
    let s ← adjustTimer { w.list with mem := m } (some p)
    pure { w with list := s }
  | .delTimer p => do
    let s ← delTimer w.list (some p)
    pure { w with list := s, live := w.live.erase p }
  | .tick cur => do
    let (s, env, fired) ← SortedTimerList.tick cur w.list w.env
    pure { list := s, env := env, live := w.live.filter (· ∉ fired) }

/-- What an operation means for the pending timers. -/
def meaning : ListOp σ → Pending.Op Addr ℤ
  | .addTimer p _ expire _ => .arm p expire
  | .adjustTimer p expire => .arm p expire
  | .delTimer p => .disarm p
  | .tick cur => .strike cur

/-- The client starts with an empty list. -/
def program (env : σ) : Program (ListWorld σ) (ListOp σ) where
  init := fun w => w = { list := .empty, env := env, live := [] }
  allowed := Allowed
  exec := exec

/-! ### The invariant -/

/-- **The invariant of the runs**: the list holds, in order, the live timers, and
there are no others. -/
structure Inv (w : ListWorld σ) (l : List Addr) : Prop where
  owned : Owned w.list l
  perm : l.Perm w.live

variable {w w' : ListWorld σ} {l : List Addr} {p : Addr} {env : σ}

theorem inv_init (env : σ) : Inv { list := .empty, env := env, live := [] } [] :=
  ⟨owned_empty, .refl _⟩

/-- **An allowed operation returns, keeps the invariant, and does to the pending
timers what it means.** -/
theorem Inv.step (h : Inv w l) (op : ListOp σ) (hop : Allowed w op) :
    ∃ w' l' out, exec w op = pure w' ∧ Inv w' l' ∧
      Pending.Step (pending w.list.mem) (meaning op) out (pending w'.list.mem) := by
  cases op with
  | addTimer p userData expire cbFunc =>
    obtain ⟨s', l', hs', hown, hperm, hsame⟩ := h.owned.addTimer hop userData expire cbFunc
    refine ⟨{ w with list := s', live := p :: w.live }, l', [], ?_,
      ⟨hown, hperm.trans (h.perm.cons p)⟩, ?_⟩
    · rw [exec, hs', pure_bind]
    · change Pending.Step _ _ _ (pending s'.mem)
      rw [hsame.pending_eq, pending_set]
      exact .arm
  | adjustTimer p expire =>
    have hpl : p ∈ l := h.perm.mem_iff.mpr hop.1
    obtain ⟨t, ht⟩ := h.owned.seg.alive hpl
    -- the client may only put the timer off
    have hle : t.expire ≤ expire := expireAt_some ht ▸ hop.2
    obtain ⟨s', l', hs', hown, hperm, hsame⟩ := h.owned.adjustTimer hpl ht hle
    refine ⟨{ w with list := s' }, l', [], ?_, ⟨hown, hperm.trans h.perm⟩, ?_⟩
    · rw [exec, Mem.modify_some ht, pure_bind, hs', pure_bind]
    · change Pending.Step _ _ _ (pending s'.mem)
      rw [hsame.pending_eq, pending_set]
      exact .arm
  | delTimer p =>
    obtain ⟨s', l', hs', hown, hperm, hsame⟩ := h.owned.delTimer (h.perm.mem_iff.mpr hop)
    refine ⟨{ w with list := s', live := w.live.erase p }, l', [], ?_, ⟨hown, ?_⟩, ?_⟩
    · rw [exec, hs', pure_bind]
    · have hlive := (hperm.symm.trans h.perm).erase p
      rwa [List.erase_cons_head] at hlive
    · change Pending.Step _ _ _ (pending s'.mem)
      rw [hsame.pending_eq, pending_clear]
      exact .disarm
  | tick cur =>
    obtain ⟨s', env', fired, l', hs', hT⟩ := tick_spec cur h.owned w.env
    refine ⟨{ list := s', env := env', live := w.live.filter (· ∉ fired) }, l', fired, ?_,
      ⟨hT.owned, ?_⟩, .strike hT.expires⟩
    · rw [exec, hs', pure_bind]
    · rw [← hT.filter_notMem h.owned.nodup]
      exact h.perm.filter _

/-! ### What the client sees -/

/-- **A well linked list**: the nodes met from `head` are `l`, linked back one by one;
they are the live timers, each once, in non-decreasing order, and `tail` is the
last of them. -/
structure WellLinked (w : ListWorld σ) (l : List Addr) : Prop where
  dll : IsDll w.list.mem w.list.head l
  perm : l.Perm w.live
  nodup : l.Nodup
  ascending : Ascending w.list.mem l
  tail : l ≠ [] → w.list.tail = l.getLast?

theorem Inv.wellLinked (h : Inv w l) : WellLinked w l where
  dll := h.owned.seg.isDll
  perm := h.perm
  nodup := h.owned.nodup
  ascending := h.owned.ascending
  tail := h.owned.tail

/-- **Every run keeps the list well linked**, and every operation that the client
may ask for returns. -/
theorem reachable_wellLinked (h : (program env).Reachable w) :
    (∃ l, WellLinked w l) ∧ ∀ op, Allowed w op → ∃ w', exec w op = pure w' := by
  have hsafe : (∃ l, Inv w l) ∧ ∀ op, Allowed w op → ∃ w', exec w op = pure w' := by
    refine Program.safe (P := program env) (I := fun w => ∃ l, Inv w l)
      (fun w hw => ⟨[], hw ▸ inv_init env⟩) (fun w op hl hop => ?_) h
    obtain ⟨l, hl⟩ := hl
    obtain ⟨w', l', -, hw', hinv, -⟩ := hl.step op hop
    exact ⟨w', hw', l', hinv⟩
  obtain ⟨⟨l, hl⟩, hrun⟩ := hsafe
  exact ⟨⟨l, hl.wellLinked⟩, hrun⟩

/-- Two timers, the second of which goes in front of the first. -/
theorem reachable_wellLinked_two :
    ∃ w : ListWorld Unit, w.live = [8, 7] ∧ w.list.head = some 8 ∧ (∃ l, WellLinked w l) ∧
      ∀ op, Allowed w op → ∃ w', exec w op = pure w' := by
  have h₁ : (program ()).Reachable _ := .step (a := .addTimer 7 0 30 fun _ e => e) (.init rfl)
    ⟨rfl, rfl⟩
  have h₂ : (program ()).Reachable _ := .step (a := .addTimer 8 0 20 fun _ e => e) h₁ ⟨rfl, rfl⟩
  exact ⟨_, rfl, rfl, reachable_wellLinked h₂⟩

end ListWorld

end Candcpp
