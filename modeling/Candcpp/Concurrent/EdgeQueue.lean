import Candcpp.Lts

/-!
# A queue that is watched for edges

Something arrives, and waits in a queue until it is taken. Who takes it learns of it by an
*edge*: an arrival sets a flag, and a report clears it, so that what arrives before the report is
reported once. A server of such a queue (`Candcpp.EdgeQueue.Server`) is any system whose steps do
to the queue what their `Candcpp.EdgeQueue.Effect` says, and which takes one thing for each report.

| effect | queue | events taken up |
|---|---|---|
| `arrive` | one more, and the flag is set | – |
| `report` | the flag, which was set, is cleared | one more |
| `take` | one less | one less of which nothing is taken yet |
| `finish` | – | one less |

As many things wait as there are reports of which nothing is taken, and one more if the flag is
set: this holds as long as nothing arrives while the flag is set, and what arrives nevertheless is
left in the queue for ever (`Candcpp.EdgeQueue.Server.left`). If moreover nothing arrives while an
event is being handled, the queue is empty whenever one has been
(`Candcpp.EdgeQueue.Server.drained`).
-/

namespace Candcpp

/-- How many things wait, and whether there is an edge that has not been reported. -/
structure EdgeQueue where
  pending : ℕ
  edge : Bool
  deriving DecidableEq, Repr

namespace EdgeQueue

/-- What a step does to a queue and to the events on it. -/
inductive Effect where
  | arrive : Effect
  | report : Effect
  | take : Effect
  | finish : Effect
  | none : Effect
  deriving DecidableEq, Repr

/-- Nothing has arrived. -/
def empty : EdgeQueue where
  pending := 0
  edge := false

/-- The queue after a step. -/
def act (q : EdgeQueue) : Effect → EdgeQueue
  | .arrive => { pending := q.pending + 1, edge := true }
  | .report => { q with edge := false }
  | .take => { q with pending := q.pending - 1 }
  | .finish => q
  | .none => q

/-- How many things an unreported edge stands for, if none has been merged with another one. -/
def due (q : EdgeQueue) : ℕ := if q.edge then 1 else 0

theorem due_of_edge {q : EdgeQueue} (h : q.edge = true) : q.due = 1 := if_pos h

theorem due_eq_zero {q : EdgeQueue} : q.due = 0 ↔ q.edge = false := by
  rw [due]
  cases q.edge <;> simp

theorem due_le (q : EdgeQueue) : q.due ≤ 1 := by
  rw [due]
  split <;> omega

/-- **A server of a queue**: each event that is reported to it is handled by taking one thing. -/
structure Server (σ α : Type) where
  lts : Lts σ α
  queue : σ → EdgeQueue
  /-- The events that are being handled, or will be. -/
  busy : σ → ℕ
  /-- Those of them for which nothing has been taken yet. -/
  taking : σ → ℕ
  effect : σ → α → Effect
  init_eq : ∀ s, lts.init s → queue s = empty ∧ busy s = 0
  taking_le : ∀ s, taking s ≤ busy s
  queue_eq : ∀ s a t, lts.step s a t → queue t = (queue s).act (effect s a)
  edge_eq : ∀ s a t, lts.step s a t → effect s a = .report → (queue s).edge = true
  taking_eq : ∀ s a t, lts.step s a t →
    taking t + (if effect s a = .take then 1 else 0) =
      taking s + (if effect s a = .report then 1 else 0)
  busy_eq : ∀ s a t, lts.step s a t →
    busy t + (if effect s a = .finish then 1 else 0) =
      busy s + (if effect s a = .report then 1 else 0)

namespace Server

variable {σ α : Type} (S : Server σ α) {s t u : σ} {a : α} {l : List (σ × α)}

/-- **The condition**: something arrives only where there is no edge to report, and no event is
being handled. -/
def Alone (s : σ) (a : α) : Prop :=
  S.effect s a = .arrive → (S.queue s).edge = false ∧ S.busy s = 0

/-- **The invariant** of the runs whose arrivals are alone. -/
structure Inv (s : σ) : Prop where
  pending_eq : (S.queue s).pending = S.taking s + (S.queue s).due
  busy_le : S.busy s + (S.queue s).due ≤ 1

variable {S}

theorem inv_init (h : S.lts.init s) : S.Inv s := by
  obtain ⟨hq, hb⟩ := S.init_eq s h
  have ht := S.taking_le s
  constructor
  · rw [hq, show S.taking s = 0 by omega]
    rfl
  · rw [hq, hb]
    exact Nat.zero_le 1

/-- What a step does, in numbers. -/
theorem step_cases (hs : S.lts.step s a t) :
    (S.effect s a = .arrive ∧ (S.queue t).pending = (S.queue s).pending + 1 ∧
      (S.queue t).due = 1 ∧ S.taking t = S.taking s ∧ S.busy t = S.busy s) ∨
    (S.effect s a = .report ∧ (S.queue t).pending = (S.queue s).pending ∧ (S.queue s).due = 1 ∧
      (S.queue t).due = 0 ∧ S.taking t = S.taking s + 1 ∧ S.busy t = S.busy s + 1) ∨
    (S.effect s a = .take ∧ (S.queue t).pending = (S.queue s).pending - 1 ∧
      (S.queue t).due = (S.queue s).due ∧ S.taking t + 1 = S.taking s ∧ S.busy t = S.busy s) ∨
    (S.effect s a = .finish ∧ (S.queue t).pending = (S.queue s).pending ∧
      (S.queue t).due = (S.queue s).due ∧ S.taking t = S.taking s ∧ S.busy t + 1 = S.busy s) ∨
    (S.effect s a = .none ∧ (S.queue t).pending = (S.queue s).pending ∧
      (S.queue t).due = (S.queue s).due ∧ S.taking t = S.taking s ∧ S.busy t = S.busy s) := by
  have hq := S.queue_eq s a t hs
  have hedge := S.edge_eq s a t hs
  have htaking := S.taking_eq s a t hs
  have hbusy := S.busy_eq s a t hs
  cases he : S.effect s a <;> rw [he] at hq htaking hbusy <;>
    simp only [reduceCtorEq, if_false, if_true, Nat.add_zero] at htaking hbusy
  case arrive => exact .inl ⟨rfl, by rw [hq]; rfl, by rw [hq]; rfl, htaking, hbusy⟩
  case report =>
    exact .inr (.inl ⟨rfl, by rw [hq]; rfl, due_of_edge (hedge he), by rw [hq]; rfl, htaking,
      hbusy⟩)
  case take => exact .inr (.inr (.inl ⟨rfl, by rw [hq]; rfl, by rw [hq]; rfl, htaking, hbusy⟩))
  case finish =>
    exact .inr (.inr (.inr (.inl ⟨rfl, by rw [hq]; rfl, by rw [hq]; rfl, htaking, hbusy⟩)))
  case none =>
    exact .inr (.inr (.inr (.inr ⟨rfl, by rw [hq]; rfl, by rw [hq]; rfl, htaking, hbusy⟩)))

/-- **One step** of a server, where an arrival is alone. -/
theorem Inv.step (h : S.Inv s) (halone : S.Alone s a) (hs : S.lts.step s a t) : S.Inv t := by
  obtain ⟨hpending, hbusy⟩ := h
  rcases step_cases hs with ⟨he, hp, hd, ht, hb⟩ | ⟨-, hp, hd, hd', ht, hb⟩ | ⟨-, hp, hd, ht, hb⟩ |
    ⟨-, hp, hd, ht, hb⟩ | ⟨-, hp, hd, ht, hb⟩
  · have hdue := due_eq_zero.mpr (halone he).1
    have hzero := (halone he).2
    exact ⟨by omega, by omega⟩
  all_goals exact ⟨by omega, by omega⟩

/-- The queue is empty when an event has been handled. -/
theorem Inv.pending_of_finish (h : S.Inv s) (hs : S.lts.step s a t)
    (he : S.effect s a = .finish) : (S.queue t).pending = 0 := by
  have hle := S.taking_le t
  obtain ⟨hpending, hbusy⟩ := h
  rcases step_cases hs with ⟨he', -⟩ | ⟨he', -⟩ | ⟨he', -⟩ | ⟨-, hp, hd, ht, hb⟩ | ⟨he', -⟩
  case inr.inr.inr.inl => omega
  all_goals exact absurd (he.symm.trans he') (by simp)

/-- **A queue is drained by every event** in a run whose arrivals are alone, and when no event is
being handled, what waits will be reported. -/
theorem drained (hinit : S.lts.init s) (hl : S.lts.Run s l t) (halone : ∀ p ∈ l, S.Alone p.1 p.2) :
    (∀ p ∈ l, ∀ u, S.lts.step p.1 p.2 u → S.effect p.1 p.2 = .finish → (S.queue u).pending = 0) ∧
      ∀ u ∈ Lts.visited l t, S.busy u = 0 → (S.queue u).pending = (S.queue u).due := by
  have hinv := hl.invariant (inv_init hinit) fun p hp u h hs => h.step (halone p hp) hs
  constructor
  · intro p hp u hs he
    exact (hinv p.1 (Lts.mem_visited hp _)).pending_of_finish hs he
  · intro u hu hb
    have hle := S.taking_le u
    have hpending := (hinv u hu).pending_eq
    omega

/-- The reports and the unreported edge never stand for more than there is. -/
theorem le_pending_step (h : S.taking s + (S.queue s).due ≤ (S.queue s).pending)
    (hs : S.lts.step s a t) : S.taking t + (S.queue t).due ≤ (S.queue t).pending := by
  have hle := due_le (S.queue s)
  rcases step_cases hs with ⟨-, hp, hd, ht, -⟩ | ⟨-, hp, hd, hd', ht, -⟩ | ⟨-, hp, hd, ht, -⟩ |
    ⟨-, hp, hd, ht, -⟩ | ⟨-, hp, hd, ht, -⟩
  all_goals omega

theorem le_pending (hinit : S.lts.init s) (hl : S.lts.Run s l t) :
    S.taking t + (S.queue t).due ≤ (S.queue t).pending := by
  have h0 := (inv_init hinit).pending_eq.ge
  exact hl.invariant (I := fun u => S.taking u + (S.queue u).due ≤ (S.queue u).pending) h0
    (fun _ _ _ h hs => le_pending_step h hs) t
    (Lts.last_mem_visited _ _)

/-- **What arrives before an earlier edge is reported is left** in the queue for ever. -/
theorem left {s₀ : σ} {l' : List (σ × α)} (hinit : S.lts.init s₀) (hl : S.lts.Run s₀ l s)
    (hs : S.lts.step s a t) (he : S.effect s a = .arrive) (hedge : (S.queue s).edge = true)
    (hl' : S.lts.Run t l' u) : 0 < (S.queue u).pending := by
  have hdue := due_of_edge hedge
  have hle := le_pending hinit hl
  have hleft : S.taking u + (S.queue u).due < (S.queue u).pending := by
    induction hl' with
    | nil =>
      rcases step_cases hs with ⟨-, hp, hd, ht, -⟩ | ⟨he', -⟩ | ⟨he', -⟩ | ⟨he', -⟩ | ⟨he', -⟩
      case inl => omega
      all_goals exact absurd (he.symm.trans he') (by simp)
    | snoc _ hstep ih =>
      rename_i s' _ _ _
      have hle := due_le (S.queue s')
      rcases step_cases hstep with ⟨-, hp, hd, ht, -⟩ | ⟨-, hp, hd, hd', ht, -⟩ |
        ⟨-, hp, hd, ht, -⟩ | ⟨-, hp, hd, ht, -⟩ | ⟨-, hp, hd, ht, -⟩
      all_goals omega
  omega

end Server

end EdgeQueue

end Candcpp
