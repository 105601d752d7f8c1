import Candcpp.Cpp.Exec
import Candcpp.Cpp.OrderedMap

/-!
# The connections of the reactor servers

What the classes `Server` and `Connection` of `project/30days_make_cpp_server` do to the
objects they share, in its versions `4_hello_class` and `5_main_sub_reactor`. The two have
this code in common; they differ in the threads that run it.

A `Candcpp.Connection` stands for an object of the class together with its channel and its
socket, which it owns: all three are deleted at once, and the socket closes its descriptor.
A pointer to a connection is its position in a list in which no position is used twice, so
that a pointer to a deleted object stays one, whatever is allocated later. Descriptors are
used again as soon as they are closed.

| code | definition |
|---|---|
| `new Connection(loop, clientSocket)` | `Candcpp.Server.construct` |
| `connections[clientSocket->getFd()] = conn` | `Candcpp.Server.enter` |
| `conn->setDeleteConnectionCallback(cb)` | `Candcpp.Server.setCallback` |
| `Connection::echo` | `Candcpp.Server.echo`, step by step |
| the three lines of `handleDeleteConnection` | `Candcpp.Server.find`, `Candcpp.Server.erase`, `Candcpp.Server.delete` |

The map is not protected by a lock. Its operations are taken here as single steps, and the
steps of several threads may fall between them in any order.
-/

namespace Candcpp

open Cpp

/-- A `Connection` with its channel and its socket. -/
structure Connection where
  fd : ℕ
  /-- `deleteConnectionCallback` is not empty. -/
  callback : Bool
  /-- The object has not been deleted. -/
  alive : Bool
  deriving DecidableEq, Repr

structure Server where
  /-- Every `Connection` that has been constructed. -/
  objects : List Connection
  connections : OrderedMap ℕ Ptr

/-- What `::read` returns in `echo`. -/
inductive ReadResult where
  /-- Some bytes, which are sent back. -/
  | data : ReadResult
  /-- Zero: the client has closed the connection. -/
  | eof : ReadResult
  /-- The error `EAGAIN`: there is nothing left to be read. -/
  | again : ReadResult
  /-- Any other error, after which the loop goes on. -/
  | failed : ReadResult
  deriving DecidableEq, Repr

/-- Where a call of `Connection::echo` is. -/
inductive Echo where
  /-- `::read(clientFd, …)` comes next. -/
  | reading (this : Addr) : Echo
  /-- The end of the file has been read; `deleteConnectionCallback(socket)` comes next. -/
  | ended (this : Addr) : Echo
  /-- `handleDeleteConnection` has been entered. -/
  | called (this : Addr) : Echo
  /-- It has looked up `conn`; `connections.erase(…)` comes next. -/
  | found (this : Addr) (conn : Ptr) : Echo
  /-- `delete conn` comes next. -/
  | erased (this : Addr) (conn : Ptr) : Echo
  deriving DecidableEq, Repr

/-- The connection whose `echo` it is. -/
def Echo.this : Echo → Addr
  | .reading a | .ended a | .called a | .found a _ | .erased a _ => a

namespace Server

/-! ### The code -/

/-- No connection has been made. -/
def create : Server where
  objects := []
  connections := OrderedMap.empty

/-- The object at `a`, which must not have been deleted. -/
def read (s : Server) (a : Addr) : Exec Connection :=
  match s.objects[a]? with
  | some c => if c.alive then pure c else throw .dangling
  | none => throw .dangling

/-- `new Connection(loop, clientSocket)`, with the descriptor `fd`. In the end the channel is
registered with the loop, and its callback may be called. -/
def construct (s : Server) (fd : ℕ) : Server :=
  { s with objects := s.objects ++ [{ fd := fd, callback := false, alive := true }] }

/-- `connections[clientSocket->getFd()] = conn`. -/
def enter (s : Server) (conn : Addr) : Exec Server := do
  let c ← s.read conn
  pure { s with connections := s.connections.insert c.fd (some conn) }

/-- `conn->setDeleteConnectionCallback(cb)`. -/
def setCallback (s : Server) (conn : Addr) : Exec Server := do
  let c ← s.read conn
  pure { s with objects := s.objects.set conn { c with callback := true } }

/-- `conn = connections[clientSocket->getFd()]`, with the socket of `this`. Where there is no
entry, this makes one with a null pointer. -/
def find (s : Server) (this : Addr) : Exec (Ptr × Server) := do
  let c ← s.read this
  match s.connections.val c.fd with
  | some conn => pure (conn, s)
  | none => pure (none, { s with connections := s.connections.insert c.fd none })

/-- `connections.erase(clientSocket->getFd())`, with the socket of `this`. -/
def erase (s : Server) (this : Addr) : Exec Server := do
  let c ← s.read this
  pure { s with connections := s.connections.erase c.fd }

/-- `delete conn`. -/
def delete (s : Server) (conn : Ptr) : Exec Server :=
  match conn with
  | none => pure s
  | some a => do
    let c ← s.read a
    pure { s with objects := s.objects.set a { c with alive := false } }

/-- The next step of a call of `echo`, and where it leads; `none` is its return. The call
knows the descriptor by its number, but the descriptor is open as long as the connection
has not been deleted. -/
def echo (s : Server) : Echo → ReadResult → Exec (Option Echo × Server)
  | .reading this, n => do
    let _ ← s.read this
    match n with
    | .data | .failed => pure (some (.reading this), s)
    | .again => pure (none, s)
    | .eof => pure (some (.ended this), s)
  | .ended this, _ => do
    let c ← s.read this
    if c.callback then pure (some (.called this), s) else throw .emptyFunction
  | .called this, _ => do
    let (conn, server) ← s.find this
    pure (some (.found this conn), server)
  | .found this conn, _ => do
    let server ← s.erase this
    pure (some (.erased this conn), server)
  | .erased _ conn, _ => do
    let server ← s.delete conn
    pure (none, server)

/-- The descriptor is that of a connection, and has not been closed. -/
def IsOpen (s : Server) (fd : ℕ) : Prop := ∃ c ∈ s.objects, c.alive = true ∧ c.fd = fd

instance (s : Server) (fd : ℕ) : Decidable (s.IsOpen fd) :=
  inferInstanceAs (Decidable (∃ c ∈ _, _))

/-! ### Live connections -/

/-- The connection at `a`, which has not been deleted. -/
def Live (s : Server) (a : Addr) (c : Connection) : Prop :=
  s.objects[a]? = some c ∧ c.alive = true

variable {s : Server} {a b : Addr} {c d : Connection}

theorem Live.inj (h : s.Live a c) (h' : s.Live a d) : c = d :=
  Option.some.inj (h.1.symm.trans h'.1)

theorem Live.read (h : s.Live a c) : s.read a = pure c := by
  rw [Server.read, h.1]
  exact if_pos h.2

theorem live_of_read (h : s.read a = pure c) : s.Live a c := by
  rw [Server.read] at h
  split at h
  · rename_i d hd
    split at h
    · rename_i halive
      exact Exec.pure_inj.mp h ▸ ⟨hd, halive⟩
    · exact absurd h.symm (Exec.pure_ne_throw _ _)
  · exact absurd h.symm (Exec.pure_ne_throw _ _)

theorem Live.isOpen (h : s.Live a c) : s.IsOpen c.fd :=
  ⟨c, List.mem_of_getElem? h.1, h.2, rfl⟩

/-- The connections after a new one has been constructed. -/
theorem live_construct {fd : ℕ} :
    (s.construct fd).Live a c ↔
      s.Live a c ∨ (a = s.objects.length ∧ c = { fd := fd, callback := false, alive := true }) := by
  rw [Live, construct, Live]
  change (s.objects ++ [_])[a]? = some c ∧ _ ↔ _
  rcases Nat.lt_trichotomy a s.objects.length with hlt | rfl | hgt
  · rw [List.getElem?_append_left hlt]
    exact ⟨Or.inl, fun h => h.resolve_right fun h => absurd h.1 hlt.ne⟩
  · rw [List.getElem?_concat_length, List.getElem?_eq_none le_rfl]
    constructor
    · rintro ⟨h, -⟩
      exact Or.inr ⟨rfl, (Option.some.inj h).symm⟩
    · rintro (⟨h, -⟩ | ⟨-, rfl⟩)
      · cases h
      · exact ⟨rfl, rfl⟩
  · rw [List.getElem?_eq_none (by rw [List.length_append, List.length_singleton]; omega),
      List.getElem?_eq_none hgt.le]
    constructor
    · rintro ⟨h, -⟩
      cases h
    · rintro (⟨h, -⟩ | ⟨h, -⟩)
      · cases h
      · exact absurd h hgt.ne'

/-- The connections after the object at `b` has been written. -/
theorem live_set {e : Connection} (hb : s.Live b d) {objects : List Connection}
    (hobjects : objects = s.objects.set b e) :
    Live { s with objects := objects } a c ↔
      (a ≠ b ∧ s.Live a c) ∨ (a = b ∧ c = e ∧ e.alive = true) := by
  have hlen : b < s.objects.length := (List.getElem?_eq_some_iff.mp hb.1).1
  change objects[a]? = some c ∧ _ ↔ _
  rw [hobjects]
  by_cases hab : a = b
  · subst hab
    rw [List.getElem?_set_self hlen]
    constructor
    · rintro ⟨h, halive⟩
      obtain rfl := Option.some.inj h
      exact Or.inr ⟨rfl, rfl, halive⟩
    · rintro (⟨h, -⟩ | ⟨-, rfl, halive⟩)
      · exact absurd rfl h
      · exact ⟨rfl, halive⟩
  · rw [List.getElem?_set_ne (Ne.symm hab)]
    exact ⟨fun h => Or.inl ⟨hab, h⟩, fun h => (h.resolve_right fun h => hab h.1).2⟩

/-! ### What the operations do -/

theorem Live.enter_eq (h : s.Live a c) :
    s.enter a = pure { s with connections := s.connections.insert c.fd (some a) } := by
  rw [enter, h.read, pure_bind]

theorem Live.setCallback_eq (h : s.Live a c) :
    s.setCallback a = pure { s with objects := s.objects.set a { c with callback := true } } := by
  rw [setCallback, h.read, pure_bind]

theorem Live.echo_reading (h : s.Live a c) (n : ReadResult) :
    ∃ call, s.echo (.reading a) n = pure (call, s) ∧
      ∀ e, call = some e → e = .reading a ∨ e = .ended a := by
  cases n <;> rw [echo, h.read, pure_bind]
  · exact ⟨_, rfl, fun e he => Or.inl (Option.some.inj he).symm⟩
  · exact ⟨_, rfl, fun e he => Or.inr (Option.some.inj he).symm⟩
  · exact ⟨_, rfl, fun e he => by cases he⟩
  · exact ⟨_, rfl, fun e he => Or.inl (Option.some.inj he).symm⟩

theorem Live.echo_ended (h : s.Live a c) (hset : c.callback = true) (n : ReadResult) :
    s.echo (.ended a) n = pure (some (.called a), s) := by
  show (s.read a >>= _) = _
  rw [h.read, pure_bind, if_pos hset]

theorem Live.echo_ended_unset (h : s.Live a c) (hset : c.callback = false) (n : ReadResult) :
    s.echo (.ended a) n = throw .emptyFunction := by
  show (s.read a >>= _) = _
  rw [h.read, pure_bind, hset]
  rfl

theorem Live.echo_called (h : s.Live a c) {conn : Ptr}
    (hval : s.connections.val c.fd = some conn) (n : ReadResult) :
    s.echo (.called a) n = pure (some (.found a conn), s) := by
  show (s.find a >>= _) = _
  rw [find, h.read, pure_bind, hval, pure_bind]

theorem Live.echo_called_none (h : s.Live a c) (hval : s.connections.val c.fd = none)
    (n : ReadResult) :
    s.echo (.called a) n =
      pure (some (.found a none), { s with connections := s.connections.insert c.fd none }) := by
  show (s.find a >>= _) = _
  rw [find, h.read, pure_bind, hval, pure_bind]

theorem Live.echo_found (h : s.Live a c) (conn : Ptr) (n : ReadResult) :
    s.echo (.found a conn) n =
      pure (some (.erased a conn), { s with connections := s.connections.erase c.fd }) := by
  show (s.erase a >>= _) = _
  rw [erase, h.read, pure_bind, pure_bind]

theorem Live.echo_erased (h : s.Live b d) (a : Addr) (n : ReadResult) :
    s.echo (.erased a (some b)) n =
      pure (none, { s with objects := s.objects.set b { d with alive := false } }) := by
  show (s.delete (some b) >>= _) = _
  rw [delete, h.read, pure_bind, pure_bind]

theorem echo_erased_null (s : Server) (a : Addr) (n : ReadResult) :
    s.echo (.erased a none) n = pure (none, s) := by
  show (s.delete none >>= _) = _
  rw [delete, pure_bind]

/-! ### The invariant of the connections -/

/-- **The invariant of the connections**: no two of them have the same descriptor, and an
entry that is not null leads to the connection with its descriptor. -/
structure Ok (s : Server) : Prop where
  fds : ∀ {a b c d}, s.Live a c → s.Live b d → c.fd = d.fd → a = b
  entries : ∀ {k a}, s.connections.val k = some (some a) → ∃ c, s.Live a c ∧ c.fd = k

/-- Nothing but the descriptor `fd` is concerned. -/
structure Elsewhere (s s' : Server) (fd : ℕ) : Prop where
  live : ∀ {a c}, c.fd ≠ fd → (s'.Live a c ↔ s.Live a c)
  val : ∀ {k}, k ≠ fd → s'.connections.val k = s.connections.val k

theorem ok_create : Ok create where
  fds := by
    rintro a b c d ⟨h, -⟩
    cases h
  entries := by
    rintro k a ⟨⟩

section Construct

variable {fd : ℕ}

theorem elsewhere_construct : Elsewhere s (s.construct fd) fd where
  live := by
    intro a c hfd
    rw [live_construct]
    refine or_iff_left ?_
    rintro ⟨-, rfl⟩
    exact hfd rfl
  val := fun _ => rfl

theorem Live.ne_fd (h : s.Live a c) (hfd : ¬s.IsOpen fd) : c.fd ≠ fd := by
  rintro rfl
  exact hfd h.isOpen

theorem Ok.construct (h : Ok s) (hfd : ¬s.IsOpen fd) : Ok (s.construct fd) where
  fds := by
    intro a b c d hc hd heq
    rcases live_construct.mp hc with hc | ⟨rfl, rfl⟩ <;>
      rcases live_construct.mp hd with hd | ⟨rfl, rfl⟩
    · exact h.fds hc hd heq
    · exact absurd heq (hc.ne_fd hfd)
    · exact absurd heq.symm (hd.ne_fd hfd)
    · rfl
  entries := by
    intro k a hk
    obtain ⟨c, hc, hfd⟩ := h.entries hk
    exact ⟨c, live_construct.mpr (Or.inl hc), hfd⟩

end Construct

section Entries

variable {k : ℕ}

theorem elsewhere_insert (s : Server) (k : ℕ) (conn : Ptr) :
    Elsewhere s { s with connections := s.connections.insert k conn } k where
  live := fun _ => Iff.rfl
  val := fun hk => Map.insert_of_ne _ _ hk

theorem elsewhere_erase (s : Server) (k : ℕ) :
    Elsewhere s { s with connections := s.connections.erase k } k where
  live := fun _ => Iff.rfl
  val := fun hk => Map.erase_of_ne _ hk

/-- A new entry is null, or it leads to the connection with its descriptor. -/
theorem Ok.insert (h : Ok s) {conn : Ptr}
    (hconn : ∀ a, conn = some a → ∃ c, s.Live a c ∧ c.fd = k) :
    Ok { s with connections := s.connections.insert k conn } where
  fds := h.fds
  entries := by
    intro k' a hk'
    rcases Map.of_insert hk' with ⟨rfl, hnew⟩ | ⟨-, hold⟩
    · exact hconn a hnew.symm
    · exact h.entries hold

theorem Ok.erase (h : Ok s) (k : ℕ) : Ok { s with connections := s.connections.erase k } where
  fds := h.fds
  entries := fun hk' => h.entries (Map.of_erase hk').2

end Entries

section Objects

variable {e : Connection}

/-- The object at `b` keeps its descriptor. -/
theorem elsewhere_set (hb : s.Live b d) (he : e.fd = d.fd) :
    Elsewhere s { s with objects := s.objects.set b e } d.fd where
  live := by
    intro a c hfd
    rw [live_set hb rfl]
    constructor
    · rintro (⟨-, hc⟩ | ⟨-, rfl, -⟩)
      · exact hc
      · exact absurd he hfd
    · intro hc
      refine Or.inl ⟨?_, hc⟩
      rintro rfl
      exact hfd (congrArg Connection.fd (hc.inj hb))
  val := fun _ => rfl

/-- The object at `b` keeps its descriptor, and is deleted only where no entry leads to it. -/
theorem Ok.set (h : Ok s) (hb : s.Live b d) (he : e.fd = d.fd)
    (halive : e.alive = true ∨ s.connections.val d.fd ≠ some (some b)) :
    Ok { s with objects := s.objects.set b e } where
  fds := by
    intro a a' c c' hc hc' heq
    rcases (live_set hb rfl).mp hc with ⟨-, hold⟩ | ⟨rfl, rfl, -⟩ <;>
      rcases (live_set hb rfl).mp hc' with ⟨-, hold'⟩ | ⟨rfl, rfl, -⟩
    · exact h.fds hold hold' heq
    · exact h.fds hold hb (heq.trans he)
    · exact h.fds hb hold' (he.symm.trans heq)
    · rfl
  entries := by
    intro k a hk
    obtain ⟨c, hc, hfd⟩ := h.entries hk
    by_cases hab : a = b
    · subst hab
      obtain rfl := hc.inj hb
      refine ⟨e, (live_set hb rfl).mpr (Or.inr ⟨rfl, rfl, ?_⟩), he.trans hfd⟩
      exact halive.resolve_right fun hne => hne (hfd ▸ hk)
    · exact ⟨c, (live_set hb rfl).mpr (Or.inl ⟨hab, hc⟩), hfd⟩

end Objects

end Server

end Candcpp
