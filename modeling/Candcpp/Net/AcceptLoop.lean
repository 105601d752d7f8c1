import Candcpp.Cpp.Loop

/-!
# Accepting until there is nothing to accept

The listening socket of `5_main_sub_reactor` does not block, and `Channel::enableReading` registers
it with `EPOLLIN | EPOLLET`: a connection that is left in its queue is not reported again. So
`Acceptor::acceptConnection` calls `ServerSocket::accept` in a loop, which it leaves when `accept`
returns a null pointer.

But `accept` returns a null pointer for every error, not only for `EAGAIN`. **What is pending when
the loop is left by another error stays in the queue**: the loop empties it exactly if no such error
comes while something else is pending (`Candcpp.Acceptor.acceptConnection_iff`). What it takes it
always passes on.
-/

namespace Candcpp

open Cpp

/-! ### The listening socket -/

/-- What a call of `::accept` comes to. -/
inductive Accepted where
  /-- It returns the first connection of the queue. -/
  | connection : Accepted
  /-- It fails with `EAGAIN`. -/
  | again : Accepted
  /-- It fails with an error that has nothing to do with the queue, such as `EINTR`. -/
  | failed : Accepted
  /-- It fails with `ECONNABORTED`: the first connection of the queue has been aborted. -/
  | aborted : Accepted
  deriving DecidableEq, Repr

/-- A call of `::accept`, and the clients that have connected since the call before. -/
structure AcceptCall where
  arrivals : List ℕ
  outcome : Accepted

namespace Accepted

/-- The number of connections that a call takes out of the queue. -/
def removed : Accepted → ℕ
  | connection => 1
  | again => 0
  | failed => 0
  | aborted => 1

/-- The errors that say nothing about the rest of the queue. -/
def Transient : Accepted → Prop
  | connection => False
  | again => False
  | failed => True
  | aborted => True

/-- What can happen when some connections are pending: `EAGAIN` only if there are none. -/
def Possible (pending : List ℕ) : Accepted → Prop
  | connection => pending ≠ []
  | again => pending = []
  | failed => True
  | aborted => pending ≠ []

end Accepted

/-- `ServerSocket::State`. -/
inductive SocketState where
  | created : SocketState
  | bound : SocketState
  | listening : SocketState
  deriving DecidableEq, Repr

/-- A `ServerSocket`, and the connections in its queue. -/
structure ServerSocket where
  state : SocketState
  pending : List ℕ

namespace ServerSocket

/-- `accept`: the new client or a null pointer, and none if it throws. -/
def accept (s : ServerSocket) (call : AcceptCall) : Option (Option ℕ × ServerSocket) :=
  if s.state ≠ .listening then none
  else
    let pending := s.pending ++ call.arrivals
    match call.outcome with
    | .connection => some (pending.head?, { s with pending := pending.tail })
    | .again => some (none, { s with pending := pending })
    | .failed => some (none, { s with pending := pending })
    | .aborted => some (none, { s with pending := pending.tail })

variable {s s' : ServerSocket} {call : AcceptCall} {client : ℕ}

theorem accept_client (h : s.accept call = some (some client, s')) :
    call.outcome = .connection ∧ s'.state = s.state ∧
      s.pending ++ call.arrivals = client :: s'.pending := by
  rw [accept] at h
  split_ifs at h
  split at h
  · rename_i ho
    obtain ⟨hc, rfl⟩ := Prod.ext_iff.mp (Option.some.inj h)
    exact ⟨ho, rfl, List.eq_cons_of_mem_head? hc⟩
  all_goals exact nomatch (Prod.ext_iff.mp (Option.some.inj h)).1

theorem accept_null (h : s.accept call = some (none, s'))
    (hp : call.outcome.Possible (s.pending ++ call.arrivals)) :
    call.outcome ≠ .connection ∧ (call.outcome = .again → s'.pending = []) ∧
      (s.pending ++ call.arrivals).length = call.outcome.removed + s'.pending.length := by
  rw [accept] at h
  split_ifs at h
  have hp' := List.length_pos_iff (l := s.pending ++ call.arrivals)
  split at h <;> rename_i ho <;> rw [ho] at hp <;>
    obtain ⟨hc, rfl⟩ := Prod.ext_iff.mp (Option.some.inj h) <;>
    simp only [ho, Accepted.removed, List.length_tail]
  · exact absurd (List.head?_eq_none_iff.mp hc) hp
  · exact ⟨nofun, fun _ => hp, (Nat.zero_add _).symm⟩
  · exact ⟨nofun, nofun, (Nat.zero_add _).symm⟩
  · exact ⟨nofun, nofun, (Nat.add_sub_cancel' (hp'.mpr hp)).symm⟩

end ServerSocket

/-! ### The loop -/

/-- An `Acceptor`: its socket, whether it has a callback, the connections that have been accepted,
and those that have been passed to the callback. -/
structure Acceptor where
  serverSocket : ServerSocket
  newConnectionCallback : Bool
  accepted : List ℕ
  handled : List ℕ

namespace Acceptor

/-- `new Acceptor(loop)`, of which the socket listens, when some clients have connected. -/
def create (pending : List ℕ) : Acceptor where
  serverSocket := { state := .listening, pending := pending }
  newConnectionCallback := false
  accepted := []
  handled := []

/-- `setNewConnectionCallback`. -/
def setNewConnectionCallback (a : Acceptor) : Acceptor := { a with newConnectionCallback := true }

/-- The acceptor of a `Server`. -/
def ofServer (pending : List ℕ) : Acceptor := (create pending).setNewConnectionCallback

/-- The body of the loop. An exception leaves the loop as well, with nothing. -/
def acceptTurn (a : Acceptor) (call : AcceptCall) : Exec (Turn Acceptor (Option Acceptor)) :=
  match a.serverSocket.accept call with
  | none => pure (.leave none)
  | some (none, s) => pure (.leave (some { a with serverSocket := s }))
  | some (some client, s) => pure (.again
      { a with
        serverSocket := s
        accepted := a.accepted ++ [client]
        handled := if a.newConnectionCallback then a.handled ++ [client] else a.handled })

/-- `acceptConnection`. -/
def acceptConnection (calls : ℕ → AcceptCall) (a : Acceptor) : Result (Option Acceptor) :=
  drain acceptTurn calls a 0

/-- The connections that have come to the queue before the call `n`. -/
def arrived (pending : List ℕ) (calls : ℕ → AcceptCall) (n : ℕ) : List ℕ :=
  pending ++ (List.range n).flatMap fun i => (calls i).arrivals

/-- The calls come to what can happen, when the queue is what it is. -/
def Possible (calls : ℕ → AcceptCall) (a : Acceptor) : Prop :=
  ∀ n t, Drained acceptTurn calls a n t →
    (calls n).outcome.Possible (t.serverSocket.pending ++ (calls n).arrivals)

/-- **The loop empties the queue**: if it is left by a transient error, then each connection that
has come has been accepted, or is the one that was aborted. -/
def Empties (pending : List ℕ) (calls : ℕ → AcceptCall) : Prop :=
  ∀ n, (∀ m < n, (calls m).outcome = .connection) → (calls n).outcome.Transient →
    (arrived pending calls (n + 1)).length = n + (calls n).outcome.removed

/-- What holds when the loop has gone on for `n` turns. -/
structure Serves (pending : List ℕ) (calls : ℕ → AcceptCall) (n : ℕ) (a : Acceptor) : Prop where
  listening : a.serverSocket.state = .listening
  callback : a.newConnectionCallback = true
  /-- Every call has returned a connection. -/
  connection : ∀ m < n, (calls m).outcome = .connection
  count : a.accepted.length = n
  /-- What has come has been accepted, or is pending. -/
  arrived_eq : arrived pending calls n = a.accepted ++ a.serverSocket.pending
  handled_eq : a.handled = a.accepted

variable {pending : List ℕ} {calls : ℕ → AcceptCall} {a a' : Acceptor} {n : ℕ}

theorem arrived_succ (pending : List ℕ) (calls : ℕ → AcceptCall) (n : ℕ) :
    arrived pending calls (n + 1) = arrived pending calls n ++ (calls n).arrivals := by
  simp [arrived, List.range_succ]

/-- The acceptor of a server serves before the first turn. -/
theorem serves_ofServer (pending : List ℕ) (calls : ℕ → AcceptCall) :
    Serves pending calls 0 (ofServer pending) where
  listening := rfl
  callback := rfl
  connection := nofun
  count := rfl
  arrived_eq := List.append_nil _
  handled_eq := rfl

theorem acceptTurn_again (h : acceptTurn a (calls n) = pure (.again a')) :
    ∃ client s, a.serverSocket.accept (calls n) = some (some client, s) ∧
      a' = { a with
        serverSocket := s
        accepted := a.accepted ++ [client]
        handled := if a.newConnectionCallback then a.handled ++ [client] else a.handled } := by
  rw [acceptTurn] at h
  split at h
  · exact nomatch Exec.pure_inj.mp h
  · exact nomatch Exec.pure_inj.mp h
  · exact ⟨_, _, ‹_›, (Turn.again.inj (Exec.pure_inj.mp h)).symm⟩

theorem acceptTurn_leave (h : acceptTurn a (calls n) = pure (.leave (some a'))) :
    ∃ s, a.serverSocket.accept (calls n) = some (none, s) ∧ a' = { a with serverSocket := s } := by
  rw [acceptTurn] at h
  split at h
  · exact nomatch Turn.leave.inj (Exec.pure_inj.mp h)
  · exact ⟨_, ‹_›, (Option.some.inj (Turn.leave.inj (Exec.pure_inj.mp h))).symm⟩
  · exact nomatch Exec.pure_inj.mp h

/-- A turn takes one connection and passes it on. -/
theorem Serves.again (hs : Serves pending calls n a)
    (h : acceptTurn a (calls n) = pure (.again a')) : Serves pending calls (n + 1) a' := by
  obtain ⟨client, s, haccept, rfl⟩ := acceptTurn_again h
  obtain ⟨hconn, hstate, hpending⟩ := ServerSocket.accept_client haccept
  refine ⟨hstate.trans hs.listening, hs.callback, fun m hm => ?_, ?_, ?_, ?_⟩
  · rcases Nat.lt_succ_iff_lt_or_eq.mp hm with hlt | rfl
    · exact hs.connection m hlt
    · exact hconn
  · simp [hs.count]
  · simp [arrived_succ, hs.arrived_eq, hpending]
  · simp [hs.callback, hs.handled_eq]

/-- What the calls can come to, said about the connections that have come. -/
theorem possible_of_arrived
    (h : ∀ n, (∀ m < n, (calls m).outcome = .connection) →
      (calls n).outcome.Possible ((arrived pending calls (n + 1)).drop n)) :
    Possible calls (ofServer pending) := by
  intro n t hd
  have hs : Serves pending calls n t :=
    hd.invariant (serves_ofServer pending calls) fun _ _ _ hs ht => hs.again ht
  have hn := h n hs.connection
  rwa [arrived_succ, hs.arrived_eq, List.append_assoc, List.drop_left' hs.count] at hn

/-- **When the loop empties the queue**: it is left with nothing pending, and everything that has
been accepted has been passed on, exactly if no transient error comes while something else is
pending. -/
theorem acceptConnection_iff (hp : Possible calls (ofServer pending))
    (h : acceptConnection calls (ofServer pending) = (pure (some a) : Exec _)) :
    (a.serverSocket.pending = [] ∧ a.handled = a.accepted) ↔ Empties pending calls := by
  obtain ⟨n, t, hd, ht⟩ := drain_eq_pure.mp h
  have hs : Serves pending calls n t :=
    hd.invariant (serves_ofServer pending calls) fun _ _ _ hs ht => hs.again ht
  obtain ⟨s, haccept, rfl⟩ := acceptTurn_leave ht
  obtain ⟨hne, hagain, hlen⟩ := ServerSocket.accept_null haccept (hp n t hd)
  -- what has come by the last call: what was accepted before, and what that call found
  have hcount : (arrived pending calls (n + 1)).length =
      n + (calls n).outcome.removed + s.pending.length := by
    rw [arrived_succ, hs.arrived_eq, List.append_assoc, List.length_append, hs.count, hlen,
      Nat.add_assoc]
  constructor
  · rintro ⟨hempty, -⟩ m hconn htrans
    -- `n` is the only turn that has got no connection after all before it have
    have hm : m = n := by
      rcases lt_trichotomy m n with hlt | heq | hgt
      · simp [hs.connection m hlt, Accepted.Transient] at htrans
      · exact heq
      · exact absurd (hconn n hgt) hne
    rw [hm, hcount, show s.pending = [] from hempty, List.length_nil, Nat.add_zero]
  · intro hempties
    refine ⟨?_, hs.handled_eq⟩
    show s.pending = []
    cases ho : (calls n).outcome with
    | connection => exact absurd ho hne
    | again => exact hagain ho
    | failed | aborted =>
      have := hempties n hs.connection (by simp [ho, Accepted.Transient])
      exact List.length_eq_zero_iff.mp (by omega)

/-- One client, which is accepted, and `EAGAIN`. -/
theorem acceptConnection_iff_one :
    ((Acceptor.mk ⟨.listening, []⟩ true [7] [7]).serverSocket.pending = [] ∧
        (Acceptor.mk ⟨.listening, []⟩ true [7] [7]).handled =
          (Acceptor.mk ⟨.listening, []⟩ true [7] [7]).accepted) ↔
      Empties [7] fun n => ⟨[], if n = 0 then .connection else .again⟩ := by
  refine acceptConnection_iff (possible_of_arrived fun n hn => ?_)
    (drain_eq_pure.mpr ⟨1, Acceptor.mk ⟨.listening, []⟩ true [7] [7], .again .start rfl, rfl⟩)
  match n, hn with
  | 0, _ => exact List.cons_ne_nil 7 []
  | 1, _ => rfl
  | n + 2, hn => exact nomatch hn 1 (by omega)

/-- An interrupted call leaves a connection in the queue. -/
theorem not_acceptConnection :
    ¬ ∀ (pending : List ℕ) (calls : ℕ → AcceptCall) (a : Acceptor),
      Possible calls (ofServer pending) →
      acceptConnection calls (ofServer pending) = (pure (some a) : Exec _) →
      a.serverSocket.pending = [] ∧ a.handled = a.accepted := by
  intro h
  have hp : Possible (fun _ => ⟨[], .failed⟩) (ofServer [7]) :=
    possible_of_arrived fun n _ => trivial
  have h7 := h [7] _ (ofServer [7]) hp (drain_eq_pure.mpr ⟨0, ofServer [7], .start, rfl⟩)
  exact absurd h7.1 (List.cons_ne_nil 7 [])

end Acceptor

end Candcpp
