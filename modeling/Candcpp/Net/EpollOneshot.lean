import Candcpp.Lts
import Candcpp.Concurrent.WaitSet
import Candcpp.Cpp.Map

/-!
# One thread for each event

The program `chapter9_io_multiplexing/epolloneshot_test.cpp`: the main thread starts a new
thread for each event on a socket, and the new thread reads from the socket until nothing is
left. The sockets are registered with `EPOLLONESHOT`: an event disarms its socket, and there
is no other one until `reset_oneshot` has armed it again.

| code | definition |
|---|---|
| the loop of `main` | `Candcpp.EpollOneshot.execMain` |
| `worker` | `Candcpp.EpollOneshot.execWorker` |
| `epoll_wait` | `Candcpp.EpollOneshot.wait` |
| `addfd`, `reset_oneshot` | `Candcpp.EpollOneshot.addfd`, `Candcpp.EpollOneshot.resetOneshot` |

A thread is given the address of `fds_for_new_worker`, a local variable of the loop's body.
When the thread gets round to reading it, its memory may have been written again, by the
iteration for another socket, or used for something else. Only where this does not happen
(`Candcpp.EpollOneshot.Kept`) does each thread serve the socket it has been started for, and
is it alone with it (`Candcpp.EpollOneshot.run_oneshotSafe`).

A thread that has called `reset_oneshot` or `close` prints a line and leaves its loop; it is
not counted any more as being inside, since it does not use the socket again.
-/

namespace Candcpp

open Cpp

/-- `struct fds`. -/
structure Fds where
  epollfd : ℕ
  sockfd : ℕ
  deriving DecidableEq, Repr

/-- What `recv` returns. -/
inductive RecvResult where
  /-- Some bytes. -/
  | data : RecvResult
  /-- Zero: the client has closed the connection. -/
  | closed : RecvResult
  /-- The error `EAGAIN`: there is nothing left to be read. -/
  | again : RecvResult
  /-- Any other error, after which the loop goes on. -/
  | failed : RecvResult
  deriving DecidableEq, Repr

/-- Where a worker is. -/
inductive OneshotPhase where
  /-- `arg->sockfd` is read next. -/
  | created : OneshotPhase
  /-- `arg->epollfd` is read next. -/
  | reading (sockfd : ℕ) : OneshotPhase
  /-- `recv` comes next. -/
  | receiving (fds : Fds) : OneshotPhase
  /-- `reset_oneshot` comes next. -/
  | resetting (fds : Fds) : OneshotPhase
  /-- `close( sockfd )` comes next. -/
  | closing (fds : Fds) : OneshotPhase
  | done : OneshotPhase
  deriving DecidableEq, Repr

namespace OneshotPhase

/-- The argument has not been read to its end. -/
def unread : OneshotPhase → Bool
  | .created | .reading _ => true
  | _ => false

/-- The socket that the worker knows. -/
def sockfd : OneshotPhase → Option ℕ
  | .created | .done => none
  | .reading fd => some fd
  | .receiving fds | .resetting fds | .closing fds => some fds.sockfd

/-- The socket for which the worker is inside the receive loop. -/
def inside : OneshotPhase → Option ℕ
  | .created | .done | .reading _ => none
  | .receiving fds | .resetting fds | .closing fds => some fds.sockfd

end OneshotPhase

structure OneshotWorker where
  /-- The socket of the event for which it has been started. -/
  socket : ℕ
  phase : OneshotPhase
  deriving DecidableEq, Repr

/-- Where the main thread is. The `events` are those of its batch that are still to be
handled, each with its descriptor and whether it has the flag `EPOLLIN`. -/
inductive OneshotMain where
  /-- `epoll_wait` comes next. -/
  | waiting : OneshotMain
  /-- The test `i < ret` comes next. -/
  | scanning (events : List (ℕ × Bool)) : OneshotMain
  /-- `fds_for_new_worker` has been written; `pthread_create` comes next. -/
  | creating (sockfd : ℕ) (events : List (ℕ × Bool)) : OneshotMain
  /-- It has left the loop, and the process ends. -/
  | stopped : OneshotMain
  deriving DecidableEq, Repr

structure EpollOneshot where
  listenfd : ℕ
  epollfd : ℕ
  /-- The registered sockets, and which of them are armed. -/
  sockets : Map ℕ Bool
  main : OneshotMain
  /-- The memory of `fds_for_new_worker`, where it holds one. -/
  arg : Option Fds
  workers : List OneshotWorker

namespace EpollOneshot

/-! ### The code -/

/-- `MAX_EVENT_NUMBER`. -/
def maxEventNumber : ℕ := 1024

/-- The state before the first `epoll_wait`. -/
def create (listenfd epollfd : ℕ) : EpollOneshot where
  listenfd := listenfd
  epollfd := epollfd
  sockets := Map.empty
  main := .waiting
  arg := none
  workers := []

/-- `epoll_wait` returns `events`, and disarms their sockets. -/
def wait (s : EpollOneshot) (events : List (ℕ × Bool)) : EpollOneshot :=
  { s with
    sockets := fun k => if k ∈ events.map Prod.fst then (s.sockets k).map fun _ => false
      else s.sockets k
    main := .scanning events }

/-- `addfd( epollfd, fd, true )`. -/
def addfd (s : EpollOneshot) (fd : ℕ) : EpollOneshot :=
  { s with sockets := s.sockets.insert fd true }

/-- `reset_oneshot( epollfd, fd )`, which fails where the descriptor is not registered, or
`epollfd` is none. -/
def resetOneshot (s : EpollOneshot) (epollfd fd : ℕ) : EpollOneshot :=
  if epollfd = s.epollfd ∧ (s.sockets fd).isSome = true then s.addfd fd else s

/-- What `accept` returns is registered, even if it is no descriptor, which then fails. -/
def accept (s : EpollOneshot) : Option ℕ → EpollOneshot
  | some connfd => s.addfd connfd
  | none => s

/-- The next step of the main thread. `accept` returns `connfd`, and `pthread_create` succeeds
or not. -/
def execMain (s : EpollOneshot) (connfd : Option ℕ) (created : Bool) :
    OneshotMain → EpollOneshot
  | .waiting | .stopped => s
  | .scanning [] => { s with main := .waiting }
  | .scanning ((sockfd, epollin) :: events) =>
    if sockfd = s.listenfd then
      { s.accept connfd with main := .scanning events }
    else if epollin then
      { s with
        main := .creating sockfd events
        arg := some { epollfd := s.epollfd, sockfd := sockfd } }
    else
      { s with main := .scanning events }
  | .creating sockfd events =>
    { s with
      main := .scanning events
      workers :=
        if created then s.workers ++ [{ socket := sockfd, phase := .created }] else s.workers }

/-- Where a worker gets from a call of `recv`. -/
def received (fds : Fds) : RecvResult → OneshotPhase
  | .data | .failed => .receiving fds
  | .closed => .closing fds
  | .again => .resetting fds

/-- The worker `i` gets to `p`. -/
def go (s : EpollOneshot) (i : ℕ) (this : OneshotWorker) (p : OneshotPhase) : EpollOneshot :=
  { s with workers := s.workers.set i { this with phase := p } }

/-- The next step of the worker `i`, in the state `this`. -/
def execWorker (s : EpollOneshot) (i : ℕ) (n : RecvResult) (this : OneshotWorker) :
    OneshotPhase → Exec EpollOneshot
  | .created =>
    match s.arg with
    | some arg => pure (s.go i this (.reading arg.sockfd))
    | none => throw .dangling
  | .reading sockfd =>
    match s.arg with
    | some arg => pure (s.go i this (.receiving { epollfd := arg.epollfd, sockfd := sockfd }))
    | none => throw .dangling
  | .receiving fds => pure (s.go i this (received fds n))
  | .resetting fds => pure ((s.resetOneshot fds.epollfd fds.sockfd).go i this .done)
  | .closing fds => pure ({ s with sockets := s.sockets.erase fds.sockfd }.go i this .done)
  | .done => pure s

/-! ### The program -/

/-- Who takes a step, and what the system returns. -/
inductive Act where
  /-- `epoll_wait` returns events. -/
  | wait (events : List (ℕ × Bool)) : Act
  /-- `epoll_wait` fails. -/
  | fail : Act
  /-- The main thread goes on. -/
  | main (connfd : Option ℕ) (created : Bool) : Act
  /-- The worker `i` goes on; `n` is what `recv` returns, if it is called. -/
  | worker (i : ℕ) (n : RecvResult) : Act
  /-- The memory of `fds_for_new_worker`, which exists only during an iteration, is used for
  something else. -/
  | reuse : Act
  deriving DecidableEq, Repr

def exec (s : EpollOneshot) : Act → Exec EpollOneshot
  | .wait events => pure (s.wait events)
  | .fail => pure { s with main := .stopped }
  | .main connfd created => pure (s.execMain connfd created s.main)
  | .worker i n =>
    match s.workers[i]? with
    | some this => s.execWorker i n this this.phase
    | none => pure s
  | .reuse => pure { s with arg := none }

/-- The main thread is about to call `pthread_create`. -/
def isCreating : OneshotMain → Bool
  | .creating _ _ => true
  | _ => false

/-- **What may happen next**: `epoll_wait` reports armed sockets, each of them once, or the
listening socket, which is not registered for one event only; `accept` returns a descriptor
that is not in use. When the main thread has left its loop, the process has ended. -/
def Allowed (s : EpollOneshot) : Act → Prop
  | .wait events =>
    s.main = .waiting ∧ events.length ≤ maxEventNumber ∧ (events.map Prod.fst).Nodup ∧
      ∀ k ∈ events.map Prod.fst, k = s.listenfd ∨ s.sockets k = some true
  | .fail => s.main = .waiting
  | .main connfd _ =>
    s.main ≠ .waiting ∧ s.main ≠ .stopped ∧ ∀ fd ∈ connfd, fd ≠ s.listenfd ∧ s.sockets fd = none
  | .worker i _ => s.main ≠ .stopped ∧ i < s.workers.length
  | .reuse => s.main ≠ .stopped ∧ isCreating s.main = false

instance (s : EpollOneshot) : (a : Act) → Decidable (s.Allowed a)
  | .wait _ => inferInstanceAs (Decidable (_ ∧ _))
  | .fail => inferInstanceAs (Decidable (_ = _))
  | .main _ _ => inferInstanceAs (Decidable (_ ∧ _ ∧ _))
  | .worker _ _ => inferInstanceAs (Decidable (_ ∧ _))
  | .reuse => inferInstanceAs (Decidable (_ ∧ _))

/-- The runs of the program with these descriptors. -/
def program (listenfd epollfd : ℕ) : Program EpollOneshot Act where
  init := fun s => s = create listenfd epollfd
  allowed := Allowed
  exec := exec

instance (listenfd epollfd : ℕ) (s : EpollOneshot) (a : Act) :
    Decidable ((program listenfd epollfd).allowed s a) :=
  inferInstanceAs (Decidable (s.Allowed a))

/-! ### What is to be shown -/

/-- A step of the main thread writes `fds_for_new_worker`. -/
def writes (s : EpollOneshot) : OneshotMain → Bool
  | .scanning ((sockfd, epollin) :: _) => sockfd ≠ s.listenfd && epollin
  | _ => false

/-- A step changes the memory of `fds_for_new_worker`. -/
def overwrites (s : EpollOneshot) : Act → Bool
  | .main _ _ => s.writes s.main
  | .reuse => true
  | _ => false

/-- **The argument is kept** as long as a worker has not read it. -/
def Kept (s : EpollOneshot) (act : Act) : Prop :=
  s.overwrites act = true → ∀ w ∈ s.workers, w.phase.unread = false

instance (s : EpollOneshot) (act : Act) : Decidable (s.Kept act) :=
  inferInstanceAs (Decidable (_ → ∀ w ∈ _, _))

/-- **Each worker serves the socket it has been started for**, and is alone inside the receive
loop for it. -/
structure Safe (s : EpollOneshot) : Prop where
  own : ∀ w ∈ s.workers, ∀ fd, w.phase.sockfd = some fd → fd = w.socket
  single : ∀ (i j : ℕ) v w fd, s.workers[i]? = some v → s.workers[j]? = some w →
    v.phase.inside = some fd → w.phase.inside = some fd → i = j

/-! ### The invariant -/

/-- The sockets whose events the main thread has still to handle. -/
def pending (listenfd : ℕ) : OneshotMain → List ℕ
  | .scanning events => (events.map Prod.fst).filter (· ≠ listenfd)
  | .creating sockfd events => sockfd :: (events.map Prod.fst).filter (· ≠ listenfd)
  | .waiting | .stopped => []

/-- The socket that a worker will not give back before it has called `reset_oneshot` or
`close`. -/
def holds (w : OneshotWorker) : Option ℕ := if w.phase = .done then none else some w.socket

/-- **The invariant**: a socket is armed, or its event is still to be handled, or one worker
has it. -/
structure Inv (s : EpollOneshot) : Prop where
  listening : s.sockets s.listenfd = none
  nodup : (pending s.listenfd s.main).Nodup
  disarmed : ∀ k ∈ pending s.listenfd s.main, s.sockets k = some false
  holding : ∀ w ∈ s.workers, ∀ k, holds w = some k →
    s.sockets k = some false ∧ k ∉ pending s.listenfd s.main
  once : ∀ (i j : ℕ) v w k, s.workers[i]? = some v → s.workers[j]? = some w →
    holds v = some k → holds w = some k → i = j
  /-- A worker that has still to read its argument will find its own socket there. -/
  unread : ∀ w ∈ s.workers, w.phase.unread = true →
    s.arg = some { epollfd := s.epollfd, sockfd := w.socket }
  own : ∀ w ∈ s.workers, ∀ fd, w.phase.sockfd = some fd → fd = w.socket
  creating : ∀ fd events, s.main = .creating fd events →
    s.arg = some { epollfd := s.epollfd, sockfd := fd }

variable {s s' : EpollOneshot} {i : ℕ} {this : OneshotWorker}

theorem inv_create (listenfd epollfd : ℕ) : Inv (create listenfd epollfd) where
  listening := rfl
  nodup := List.nodup_nil
  disarmed := fun k hk => absurd hk List.not_mem_nil
  holding := fun w hw => absurd hw List.not_mem_nil
  once := by
    rintro i j v w k ⟨⟩
  unread := fun w hw => absurd hw List.not_mem_nil
  own := fun w hw => absurd hw List.not_mem_nil
  creating := by
    rintro fd events ⟨⟩

theorem holds_of_inside {w : OneshotWorker} {fd : ℕ} (h : w.phase.inside = some fd) :
    w.phase.sockfd = some fd ∧ holds w = some w.socket := by
  have hne : w.phase ≠ .done := by
    intro heq
    rw [heq] at h
    cases h
  refine ⟨?_, if_neg hne⟩
  generalize w.phase = p at h
  cases p <;> first | exact h | cases h

theorem Inv.safe (h : Inv s) : Safe s where
  own := h.own
  single := by
    intro i j v w fd hi hj hv hw
    obtain ⟨hvfd, hvholds⟩ := holds_of_inside hv
    obtain ⟨hwfd, hwholds⟩ := holds_of_inside hw
    have hsame : v.socket = w.socket :=
      (h.own v (List.mem_of_getElem? hi) fd hvfd).symm.trans
        (h.own w (List.mem_of_getElem? hj) fd hwfd)
    exact h.once i j v w _ hi hj (hsame ▸ hvholds) hwholds

/-! ### The main thread -/

/-- `epoll_wait` reports armed sockets, which nobody has. -/
theorem Inv.wait (h : Inv s) {events : List (ℕ × Bool)} (hnodup : (events.map Prod.fst).Nodup)
    (harmed : ∀ k ∈ events.map Prod.fst, k = s.listenfd ∨ s.sockets k = some true) :
    Inv (s.wait events) := by
  have hout : ∀ k, s.sockets k = some false → k ∉ events.map Prod.fst := by
    intro k hk hmem
    rcases harmed k hmem with rfl | htrue
    · cases h.listening.symm.trans hk
    · cases htrue.symm.trans hk
  have hsockets : ∀ k, (s.wait events).sockets k =
      if k ∈ events.map Prod.fst then (s.sockets k).map fun _ => false else s.sockets k :=
    fun _ => rfl
  constructor
  · change (s.wait events).sockets s.listenfd = none
    rw [hsockets, h.listening]
    split <;> rfl
  · exact hnodup.filter _
  · intro k hk
    obtain ⟨hmem, hne⟩ := List.mem_filter.mp hk
    rw [hsockets, if_pos hmem, (harmed k hmem).resolve_left (of_decide_eq_true hne)]
    rfl
  · intro w hw k hk
    have hfalse := (h.holding w hw k hk).1
    refine ⟨?_, fun hmem => hout k hfalse (List.mem_filter.mp hmem).1⟩
    rw [hsockets, if_neg (hout k hfalse), hfalse]
  · exact h.once
  · exact h.unread
  · exact h.own
  · rintro fd events ⟨⟩

/-- The main thread moves on, and has no more events to handle than before. -/
theorem Inv.move (h : Inv s) {main : OneshotMain}
    (hsub : (pending s.listenfd main).Sublist (pending s.listenfd s.main))
    (hcreating : ∀ fd events, main ≠ .creating fd events) : Inv { s with main := main } where
  listening := h.listening
  nodup := h.nodup.sublist hsub
  disarmed := fun k hk => h.disarmed k (hsub.subset hk)
  holding := fun w hw k hk =>
    ⟨(h.holding w hw k hk).1, fun hmem => (h.holding w hw k hk).2 (hsub.subset hmem)⟩
  once := h.once
  unread := h.unread
  own := h.own
  creating := fun fd events hmain => absurd hmain (hcreating fd events)

/-- A new socket is registered. -/
theorem Inv.addfd (h : Inv s) {fd : ℕ} (hne : fd ≠ s.listenfd) (hfd : s.sockets fd = none) :
    Inv (s.addfd fd) := by
  have hold : ∀ {k}, s.sockets k = some false → (s.addfd fd).sockets k = some false := by
    intro k hk
    refine (Map.insert_of_ne _ _ ?_).trans hk
    rintro rfl
    cases hfd.symm.trans hk
  exact
    { h with
      listening := (Map.insert_of_ne _ _ hne.symm).trans h.listening
      disarmed := fun k hk => hold (h.disarmed k hk)
      holding := fun w hw k hk => ⟨hold (h.holding w hw k hk).1, (h.holding w hw k hk).2⟩ }

/-- The argument of a new worker is written, when nobody has still to read the last one. -/
theorem Inv.write (h : Inv s) {sockfd : ℕ} {events : List (ℕ × Bool)}
    (hmain : pending s.listenfd s.main = pending s.listenfd (.creating sockfd events))
    (hkept : ∀ w ∈ s.workers, w.phase.unread = false) :
    Inv
      { s with
        main := .creating sockfd events
        arg := some { epollfd := s.epollfd, sockfd := sockfd } } := by
  constructor
  · exact h.listening
  · exact hmain ▸ h.nodup
  · exact hmain ▸ h.disarmed
  · exact hmain ▸ h.holding
  · exact h.once
  · intro w hw hunread
    rw [hkept w hw] at hunread
    cases hunread
  · exact h.own
  · rintro fd events' heq
    rw [(OneshotMain.creating.inj heq).1]

/-- **A worker is started** for a socket whose event has been handled. -/
theorem Inv.start (h : Inv s) {sockfd : ℕ} {events : List (ℕ × Bool)}
    (hmain : s.main = .creating sockfd events) :
    Inv
      { s with
        main := .scanning events
        workers := s.workers ++ [{ socket := sockfd, phase := .created }] } := by
  have hpending : pending s.listenfd s.main =
      sockfd :: pending s.listenfd (.scanning events) := by
    rw [hmain]
    rfl
  obtain ⟨hnodup, hdisarmed, hholding, honce⟩ :=
    (⟨h.nodup, h.disarmed, h.holding, h.once⟩ : _ ∧ _ ∧ _ ∧ _)
  rw [hpending] at hnodup hdisarmed hholding
  obtain ⟨hnotMem, hnodup⟩ := List.nodup_cons.mp hnodup
  -- nobody has the socket yet
  have hfree : ∀ (j : ℕ) w, s.workers[j]? = some w → holds w ≠ some sockfd := by
    intro j w hj hw
    exact (hholding w (List.mem_of_getElem? hj) sockfd hw).2 List.mem_cons_self
  have hcases : ∀ (j : ℕ) w k,
      (s.workers ++ [{ socket := sockfd, phase := .created }])[j]? = some w → holds w = some k →
      (s.workers[j]? = some w ∧ k ≠ sockfd) ∨ (j = s.workers.length ∧ k = sockfd) := by
    intro j w k hj hk
    rcases Nat.lt_trichotomy j s.workers.length with hlt | rfl | hgt
    · rw [List.getElem?_append_left hlt] at hj
      refine Or.inl ⟨hj, ?_⟩
      rintro rfl
      exact hfree j w hj hk
    · rw [List.getElem?_concat_length] at hj
      obtain rfl := Option.some.inj hj
      exact Or.inr ⟨rfl, (Option.some.inj hk).symm⟩
    · rw [List.getElem?_eq_none (by rw [List.length_append, List.length_singleton]; omega)] at hj
      cases hj
  constructor
  · exact h.listening
  · exact hnodup
  · exact fun k hk => hdisarmed k (List.mem_cons_of_mem _ hk)
  · intro w hw k hk
    rcases List.mem_append.mp hw with hw | hw
    · have hold := hholding w hw k hk
      exact ⟨hold.1, fun hmem => hold.2 (List.mem_cons_of_mem _ hmem)⟩
    · obtain rfl := List.mem_singleton.mp hw
      obtain rfl := Option.some.inj hk
      exact ⟨hdisarmed sockfd List.mem_cons_self, hnotMem⟩
  · intro i j v w k hi hj hv hw
    rcases hcases i v k hi hv with ⟨hi, hne⟩ | ⟨rfl, rfl⟩ <;>
      rcases hcases j w k hj hw with ⟨hj, hne'⟩ | ⟨rfl, heq⟩
    · exact honce i j v w k hi hj hv hw
    · exact absurd heq hne
    · exact absurd rfl hne'
    · rfl
  · intro w hw hunread
    rcases List.mem_append.mp hw with hw | hw
    · exact h.unread w hw hunread
    · obtain rfl := List.mem_singleton.mp hw
      exact h.creating sockfd events hmain
  · intro w hw fd hfd
    rcases List.mem_append.mp hw with hw | hw
    · exact h.own w hw fd hfd
    · obtain rfl := List.mem_singleton.mp hw
      cases hfd
  · rintro fd events' ⟨⟩

/-- The main thread goes on, and does not overwrite an argument that has not been read. -/
theorem Inv.main (h : Inv s) {connfd : Option ℕ} {created : Bool}
    (hconnfd : ∀ fd ∈ connfd, fd ≠ s.listenfd ∧ s.sockets fd = none)
    (hkept : s.Kept (.main connfd created)) : Inv (s.execMain connfd created s.main) := by
  rcases hmain : s.main with _ | ⟨_ | ⟨⟨sockfd, epollin⟩, events⟩⟩ | ⟨sockfd, events⟩ | _
  · exact h
  · exact h.move (List.nil_sublist _) (by rintro fd events ⟨⟩)
  · rw [execMain]
    split
    · -- the listening socket is readable
      rename_i heq
      have hpending : pending s.listenfd s.main = pending s.listenfd (.scanning events) := by
        rw [hmain]
        exact List.filter_cons_of_neg (p := fun k => decide (k ≠ s.listenfd)) (by simpa using heq)
      cases connfd with
      | some fd =>
        obtain ⟨hne, hfd⟩ := hconnfd fd rfl
        exact (h.addfd hne hfd).move (hpending ▸ List.Sublist.refl _) (by rintro fd events ⟨⟩)
      | none => exact h.move (hpending ▸ List.Sublist.refl _) (by rintro fd events ⟨⟩)
    · rename_i hne
      have hpending : pending s.listenfd s.main = pending s.listenfd (.creating sockfd events) := by
        rw [hmain]
        exact List.filter_cons_of_pos (p := fun k => decide (k ≠ s.listenfd)) (by simpa using hne)
      split
      · rename_i hin
        refine h.write hpending (hkept ?_)
        rw [overwrites, hmain, writes, hin, Bool.and_true]
        exact decide_eq_true hne
      · refine h.move ?_ (by rintro fd events ⟨⟩)
        rw [hpending]
        exact List.sublist_cons_self _ _
  · rw [execMain]
    split
    · exact h.start hmain
    · refine h.move ?_ (by rintro fd events ⟨⟩)
      rw [hmain]
      exact List.sublist_cons_self _ _
  · exact h

/-! ### The workers -/

/-- A worker of the table after a step of the worker `i` is the one that has taken it, or
another one. -/
theorem mem_go {p : OneshotPhase} {w : OneshotWorker} (hw : w ∈ (s.go i this p).workers) :
    w = { this with phase := p } ∨ w ∈ s.workers :=
  (List.mem_or_eq_of_mem_set hw).symm

/-- A worker goes on and keeps its socket. -/
theorem Inv.go (h : Inv s) (hi : s.workers[i]? = some this) (hphase : this.phase ≠ .done)
    {p : OneshotPhase} (hp : p ≠ .done) (hown : ∀ fd, p.sockfd = some fd → fd = this.socket)
    (hunread : p.unread = true → this.phase.unread = true) : Inv (s.go i this p) := by
  have hmem := List.mem_of_getElem? hi
  have hholds : holds { this with phase := p } = holds this :=
    (if_neg hp).trans (if_neg hphase).symm
  have hsame : ∀ (j : ℕ) v, (s.go i this p).workers[j]? = some v →
      ∃ w, s.workers[j]? = some w ∧ holds w = holds v := by
    intro j v hj
    rcases WaitSet.getElem?_move hj with ⟨rfl, rfl⟩ | ⟨-, hj⟩
    · exact ⟨this, hi, hholds.symm⟩
    · exact ⟨v, hj, rfl⟩
  constructor
  · exact h.listening
  · exact h.nodup
  · exact h.disarmed
  · intro w hw k hk
    rcases mem_go hw with rfl | hw
    · exact h.holding this hmem k (hholds.symm.trans hk)
    · exact h.holding w hw k hk
  · intro j l v w k hj hl hv hw
    obtain ⟨v', hj, hv'⟩ := hsame j v hj
    obtain ⟨w', hl, hw'⟩ := hsame l w hl
    exact h.once j l v' w' k hj hl (hv'.trans hv) (hw'.trans hw)
  · intro w hw hun
    rcases mem_go hw with rfl | hw
    · exact h.unread this hmem (hunread hun)
    · exact h.unread w hw hun
  · intro w hw fd hfd
    rcases mem_go hw with rfl | hw
    · exact hown fd hfd
    · exact h.own w hw fd hfd
  · exact h.creating

/-- **A worker gives back its socket**, of which nobody else has a use. -/
theorem Inv.finish (h : Inv s) (hi : s.workers[i]? = some this) (hphase : this.phase ≠ .done)
    {sockets : Map ℕ Bool} (hsockets : ∀ k, k ≠ this.socket → sockets k = s.sockets k) :
    Inv ({ s with sockets := sockets }.go i this .done) := by
  have hholds : holds this = some this.socket := if_neg hphase
  have hheld := h.holding this (List.mem_of_getElem? hi) _ hholds
  -- no other worker has this socket
  have hothers : ∀ (j : ℕ) v k,
      ({ s with sockets := sockets }.go i this .done).workers[j]? = some v → holds v = some k →
      s.workers[j]? = some v ∧ k ≠ this.socket := by
    intro j v k hj hv
    rcases WaitSet.getElem?_move hj with ⟨rfl, rfl⟩ | ⟨hne, hj⟩
    · cases hv
    · refine ⟨hj, ?_⟩
      rintro rfl
      exact hne (h.once i j this v _ hi hj hholds hv)
  constructor
  · refine (hsockets _ ?_).trans h.listening
    -- the listening socket is not disarmed, and the socket of the worker is
    intro heq
    have hfalse := hheld.1
    rw [← heq] at hfalse
    cases h.listening.symm.trans hfalse
  · exact h.nodup
  · intro k hk
    refine (hsockets k ?_).trans (h.disarmed k hk)
    rintro rfl
    exact hheld.2 hk
  · intro w hw k hk
    obtain ⟨j, hj⟩ := List.getElem?_of_mem hw
    obtain ⟨hj, hne⟩ := hothers j w k hj hk
    have hold := h.holding w (List.mem_of_getElem? hj) k hk
    exact ⟨(hsockets k hne).trans hold.1, hold.2⟩
  · intro j l v w k hj hl hv hw
    exact h.once j l v w k (hothers j v k hj hv).1 (hothers l w k hl hw).1 hv hw
  · intro w hw hun
    rcases mem_go hw with rfl | hw
    · cases hun
    · exact h.unread w hw hun
  · intro w hw fd hfd
    rcases mem_go hw with rfl | hw
    · cases hfd
    · exact h.own w hw fd hfd
  · exact h.creating

/-- A worker goes on. -/
theorem Inv.worker (h : Inv s) (hi : s.workers[i]? = some this) {n : RecvResult}
    (hs : s.execWorker i n this this.phase = pure s') : Inv s' := by
  have hmem := List.mem_of_getElem? hi
  have hown := h.own this hmem
  have hunread := h.unread this hmem
  rcases hphase : this.phase with _ | fd | fds | fds | fds | _ <;>
    rw [hphase] at hs hown hunread <;> rw [execWorker] at hs
  · rw [hunread rfl] at hs
    obtain rfl := Exec.pure_inj.mp hs
    refine h.go hi (by rw [hphase]; rintro ⟨⟩) (by rintro ⟨⟩) ?_ fun _ => by rw [hphase]; rfl
    rintro fd hfd
    exact (Option.some.inj hfd).symm
  · rw [hunread rfl] at hs
    obtain rfl := Exec.pure_inj.mp hs
    exact h.go hi (by rw [hphase]; rintro ⟨⟩) (by rintro ⟨⟩) hown (by rintro ⟨⟩)
  · obtain rfl := Exec.pure_inj.mp hs
    refine h.go hi (by rw [hphase]; rintro ⟨⟩) ?_ ?_ ?_ <;> cases n
    all_goals first | exact hown | rintro ⟨⟩
  · obtain rfl := Exec.pure_inj.mp hs
    rw [hown fds.sockfd rfl, resetOneshot]
    split
    · exact h.finish hi (by rw [hphase]; rintro ⟨⟩) fun k hk => Map.insert_of_ne _ _ hk
    · exact h.finish hi (by rw [hphase]; rintro ⟨⟩) fun _ _ => rfl
  · obtain rfl := Exec.pure_inj.mp hs
    rw [hown fds.sockfd rfl]
    exact h.finish hi (by rw [hphase]; rintro ⟨⟩) fun k hk => Map.erase_of_ne _ hk
  · exact Exec.pure_inj.mp hs ▸ h

/-- The memory of the argument is used for something else, when nobody has to read it. -/
theorem Inv.reuse (h : Inv s) (hcreating : isCreating s.main = false)
    (hkept : ∀ w ∈ s.workers, w.phase.unread = false) : Inv { s with arg := none } := by
  refine { h with unread := ?_, creating := ?_ }
  · intro w hw hunread
    rw [hkept w hw] at hunread
    cases hunread
  · intro fd events hmain
    change s.main = _ at hmain
    rw [hmain] at hcreating
    cases hcreating

/-! ### Every run -/

/-- **Every step keeps the invariant**, if the argument is kept until it has been read. -/
theorem Inv.step (h : Inv s) {act : Act} (hall : s.Allowed act) (hkept : s.Kept act)
    (hs : s.exec act = pure s') : Inv s' := by
  cases act with
  | wait events => exact Exec.pure_inj.mp hs ▸ h.wait hall.2.2.1 hall.2.2.2
  | fail => exact Exec.pure_inj.mp hs ▸ h.move (List.nil_sublist _) (by rintro fd events ⟨⟩)
  | main connfd created => exact Exec.pure_inj.mp hs ▸ h.main hall.2.2 hkept
  | worker i n =>
    rw [exec] at hs
    split at hs
    · rename_i this hi
      exact h.worker hi hs
    · exact Exec.pure_inj.mp hs ▸ h
  | reuse => exact Exec.pure_inj.mp hs ▸ h.reuse hall.2 (hkept rfl)

/-- **Each worker serves its socket, and no socket has two workers**, in every run in which
the argument of a worker is not overwritten before it has been read. -/
theorem run_oneshotSafe {listenfd epollfd : ℕ} {l : List (EpollOneshot × Act)}
    (hl : (program listenfd epollfd).lts.Run (create listenfd epollfd) l s)
    (hkept : ∀ p ∈ l, p.1.Kept p.2) : ∀ t ∈ Lts.visited l s, Safe t := by
  intro t ht
  refine Inv.safe (hl.invariant (I := Inv) (inv_create listenfd epollfd) ?_ t ht)
  intro p hp t hinv hstep
  exact hinv.step hstep.1 (hkept p hp) hstep.2

/-- Two sockets have data in the same batch, and each worker is quick enough. -/
theorem run_oneshotSafe_two : ∃ l s, (program 3 4).lts.Run (create 3 4) l s ∧
    s.workers.map OneshotWorker.socket = [5, 6] ∧ ∀ t ∈ Lts.visited l s, Safe t := by
  have hrun := Lts.Run.of_trace (M := (program 3 4).lts) (f := (program 3 4).tryStep)
    Program.tryStep_step (s := create 3 4)
    (l := [.wait [(3, true)], .main (some 5) true, .main none true, .wait [(3, true)],
      .main (some 6) true, .main none true, .wait [(5, true), (6, true)], .main none true,
      .main none true, .worker 0 .data, .worker 0 .data, .main none true, .main none true,
      .worker 1 .data, .worker 1 .data, .worker 0 .again, .worker 0 .data]) rfl
  exact ⟨_, _, hrun, rfl, run_oneshotSafe hrun (by decide)⟩

/-- Two sockets have data in the same batch, and the first worker reads its argument when the
main thread has written that of the second one. -/
theorem not_oneshotSafe :
    ¬∀ listenfd epollfd s, (program listenfd epollfd).Reachable s → Safe s := by
  intro h
  have hinit : (program 3 4).Reachable (create 3 4) := .init rfl
  have hrun := hinit.foldlM Program.tryStep_step
    (l := [.wait [(3, true)], .main (some 5) true, .main none true, .wait [(3, true)],
      .main (some 6) true, .main none true, .wait [(5, true), (6, true)], .main none true,
      .main none true, .main none true, .main none true, .worker 0 .data, .worker 0 .data,
      .worker 1 .data, .worker 1 .data]) rfl
  exact absurd ((h 3 4 _ hrun).single 0 1 _ _ 6 rfl rfl rfl rfl) (by decide)

end EpollOneshot

end Candcpp
