import Candcpp.Concurrent.EdgeQueue

/-!
# An event loop with a listening socket

A thread that waits for events and handles those that are reported, one after the other. Among
them is, once at most, the event on the listening socket, for which a connection is accepted. What
is done with the events, and at the end of a round, is given by a `Candcpp.ListenLoop`; clients
arrive at any time, and an edge on the listening socket is reported only when one has.

The handler of an event on the listening socket begins with `accept`, and that is a step of its
own, as clients may arrive before the rest of the handler is executed. So the loop is a server of
the queue of clients (`Candcpp.ListenLoop.server`), whatever else it does.
-/

namespace Candcpp

open Cpp

/-- What a thread does with the events that are reported to it. -/
structure ListenLoop (σ ε : Type) where
  init : σ → Prop
  /-- The condition of the loop. -/
  running : σ → Bool
  /-- Whether an event is on the listening socket. -/
  listens : ε → Bool
  /-- The body of the loop over the events, with what the system calls return in the event. -/
  handle : σ → ε → Exec σ
  /-- What comes after that loop, at the given time. -/
  wrap : σ → ℤ → Exec σ

namespace ListenLoop

/-- Where the thread is. -/
inductive Phase (ε : Type)
  /-- `epoll_wait` comes next. -/
  | waiting : Phase ε
  /-- These events are to be handled. -/
  | handling (events : List ε) : Phase ε
  /-- `accept` has returned in the handler of the first event. -/
  | accepted (ev : ε) (events : List ε) : Phase ε

/-- The thread, and the queue of the clients that have not been accepted. -/
structure World (σ ε : Type) where
  server : σ
  queue : EdgeQueue
  phase : Phase ε

/-- What happens next. -/
inductive Act (ε : Type)
  /-- A client connects. -/
  | arrive : Act ε
  /-- `epoll_wait` returns these events. -/
  | wait (events : List ε) : Act ε
  /-- `accept` returns, in the handler of the next event. -/
  | accept : Act ε
  /-- The handler of the next event is executed, or the rest of it. -/
  | handle : Act ε
  /-- The end of a round. -/
  | wrap (cur : ℤ) : Act ε

variable {σ ε : Type} (L : ListenLoop σ ε)

/-- `epoll_wait` comes next. -/
def isWaiting : Phase ε → Bool
  | .waiting => true
  | _ => false

/-- `accept` comes next. -/
def isAccepting : Phase ε → Bool
  | .handling (ev :: _) => L.listens ev
  | _ => false

/-- The next event is handled, without an `accept`. -/
def isHandling : Phase ε → Bool
  | .handling (ev :: _) => !L.listens ev
  | .accepted _ _ => true
  | _ => false

/-- All events have been handled. -/
def isDone : Phase ε → Bool
  | .handling [] => true
  | _ => false

/-- The events that the thread has been given. -/
def events : Phase ε → List ε
  | .waiting => []
  | .handling events => events
  | .accepted _ events => events

/-- Whether a handler is being executed after its `accept`. -/
def isAccepted : Phase ε → Bool
  | .accepted _ _ => true
  | _ => false

/-- What a step does to the queue of clients. -/
def effect (w : World σ ε) : Act ε → EdgeQueue.Effect
  | .arrive => .arrive
  | .wait events => if events.any L.listens then .report else .none
  | .accept => .take
  | .handle => if isAccepted w.phase then .finish else .none
  | .wrap _ => .none

/-- The event on the listening socket is reported once at most, and only if a client has connected
since it was reported before. -/
def allowed (w : World σ ε) : Act ε → Prop
  | .arrive => True
  | .wait events => isWaiting w.phase = true ∧ L.running w.server = true ∧
      events.countP L.listens ≤ 1 ∧ (events.any L.listens = true → w.queue.edge = true)
  | .accept => L.isAccepting w.phase = true
  | .handle => L.isHandling w.phase = true
  | .wrap _ => isDone w.phase = true

/-- What the thread does. -/
def exec (w : World σ ε) (a : Act ε) : Exec (World σ ε) :=
  let queue := w.queue.act (L.effect w a)
  match a, w.phase with
  | .wait events, _ => pure { w with queue := queue, phase := .handling events }
  | .accept, .handling (ev :: events) =>
    pure { w with queue := queue, phase := .accepted ev events }
  | .handle, .handling (ev :: events) | .handle, .accepted ev events => do
    let server ← L.handle w.server ev
    pure { server := server, queue := queue, phase := .handling events }
  | .wrap cur, _ => do
    let server ← L.wrap w.server cur
    pure { server := server, queue := queue, phase := .waiting }
  | _, _ => pure { w with queue := queue }

/-- The runs of the thread, with the clients that connect. -/
def program : Program (World σ ε) (Act ε) where
  init := fun w => L.init w.server ∧ w.queue = .empty ∧ isWaiting w.phase = true
  allowed := L.allowed
  exec := L.exec

instance (w : World σ ε) : (a : Act ε) → Decidable (L.program.allowed w a)
  | .arrive => inferInstanceAs (Decidable True)
  | .wait _ => inferInstanceAs (Decidable (_ ∧ _ ∧ _ ∧ (_ → _)))
  | .accept => inferInstanceAs (Decidable (_ = _))
  | .handle => inferInstanceAs (Decidable (_ = _))
  | .wrap _ => inferInstanceAs (Decidable (_ = _))

/-! ### The loop is a server of the queue -/

/-- The events on the listening socket for which nothing has been accepted. -/
def taking (w : World σ ε) : ℕ := (events w.phase).countP L.listens

/-- The events on the listening socket that are being handled, or will be. -/
def busy (w : World σ ε) : ℕ := L.taking w + if isAccepted w.phase then 1 else 0

variable {L} {w w' : World σ ε} {a : Act ε}

/-- The event on the listening socket is among those reported, or not. -/
theorem countP_listens {evs : List ε} (h : evs.countP L.listens ≤ 1) :
    evs.countP L.listens = if evs.any L.listens then 1 else 0 := by
  split_ifs with hany
  · have hpos := List.countP_pos_iff.mpr (List.any_eq_true.mp hany)
    omega
  · by_contra hne
    exact hany (List.any_eq_true.mpr (List.countP_pos_iff.mp (Nat.pos_of_ne_zero hne)))

/-- **What a step does** to the queue, and to the events. -/
theorem exec_eq (hall : L.allowed w a) (h : L.exec w a = pure w') :
    w'.queue = w.queue.act (L.effect w a) ∧
      L.taking w' + (if L.effect w a = .take then 1 else 0) =
        L.taking w + (if L.effect w a = .report then 1 else 0) ∧
      L.busy w' + (if L.effect w a = .finish then 1 else 0) =
        L.busy w + (if L.effect w a = .report then 1 else 0) := by
  obtain ⟨server, queue, phase⟩ := w
  cases a with
  | arrive =>
    obtain rfl := Exec.pure_inj.mp h
    exact ⟨rfl, rfl, rfl⟩
  | wait evs =>
    obtain rfl := Exec.pure_inj.mp h
    obtain ⟨hwait, -, hone, -⟩ := hall
    -- the listening socket is reported at most once in an array of events
    have hcount := countP_listens hone
    cases phase with
    | waiting =>
      refine ⟨rfl, ?_, ?_⟩ <;>
        simp only [busy, taking, events, isAccepted, effect, hcount] <;>
        split_ifs <;> simp_all
    -- `epoll_wait` is called only when all events have been handled
    | handling evs => cases hwait
    | accepted ev evs => cases hwait
  | accept =>
    cases phase with
    | waiting => cases hall
    | handling evs =>
      cases evs with
      | nil => cases hall
      | cons ev evs =>
        obtain rfl := Exec.pure_inj.mp h
        -- the event of the listening socket is no longer to come
        have hcount : (ev :: evs).countP L.listens = evs.countP L.listens + 1 :=
          List.countP_cons_of_pos hall
        exact ⟨rfl, hcount.symm, hcount.symm⟩
    | accepted ev evs => cases hall
  | handle =>
    cases phase with
    | waiting => cases hall
    | handling evs =>
      cases evs with
      | nil => cases hall
      | cons ev evs =>
        obtain ⟨s, -, h⟩ := Exec.bind_eq_pure.mp h
        obtain rfl := Exec.pure_inj.mp h
        have hnot : (!L.listens ev) = true := hall
        have hev : ¬L.listens ev = true := by simpa using hnot
        have hcount : (ev :: evs).countP L.listens = evs.countP L.listens :=
          List.countP_cons_of_neg hev
        exact ⟨rfl, hcount.symm, hcount.symm⟩
    | accepted ev evs =>
      obtain ⟨s, -, h⟩ := Exec.bind_eq_pure.mp h
      obtain rfl := Exec.pure_inj.mp h
      exact ⟨rfl, rfl, rfl⟩
  | wrap cur =>
    obtain ⟨s, -, h⟩ := Exec.bind_eq_pure.mp h
    obtain rfl := Exec.pure_inj.mp h
    match phase, hall with
    | .handling [], _ => exact ⟨rfl, rfl, rfl⟩

variable (L)

/-- **The loop as a server** of the queue of clients. -/
def server : EdgeQueue.Server (World σ ε) (Act ε) where
  lts := L.program.lts
  queue := World.queue
  busy := L.busy
  taking := L.taking
  effect := L.effect
  init_eq := by
    rintro ⟨server, queue, phase⟩ ⟨-, hq, hwait⟩
    cases phase with
    | waiting => exact ⟨hq, rfl⟩
    | handling evs => cases hwait
    | accepted ev evs => cases hwait
  taking_le := fun w => Nat.le_add_right _ _
  queue_eq := fun w a w' h => (exec_eq h.1 h.2).1
  edge_eq := by
    intro w a w' h he
    match a, h.1, he with
    | .wait evs, ⟨_, _, _, hedge⟩, he =>
      refine hedge ?_
      by_contra hany
      rw [effect, if_neg hany] at he
      cases he
    | .handle, _, he =>
      rw [effect] at he
      split_ifs at he
  taking_eq := fun w a w' h => (exec_eq h.1 h.2).2.1
  busy_eq := fun w a w' h => (exec_eq h.1 h.2).2.2

end ListenLoop

end Candcpp
