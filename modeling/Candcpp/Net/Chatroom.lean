import Candcpp.Lts
import Candcpp.Cpp.Entries

/-!
# The chat room

The loop of `chapter9_io_multiplexing/chatroom_server.cpp`: one thread that polls the
listening socket and at most five clients, and sends what it reads from one client to all
the others.

The array `fds` has the listening socket at position 0 and a client at each of the positions
`1, …, user_counter`; the array `users` has an object for each descriptor there can be. A
client's `write_buf` is a pointer into the `buf` of the client whose text it is to get.

| code | definition |
|---|---|
| the initialisation | `Candcpp.Chatroom.create` |
| `poll`, and the end of the round | `Candcpp.Chatroom.execAt` |
| the body of the `for` loop | `Candcpp.Chatroom.examine` |
| the listening socket is readable | `Candcpp.Chatroom.accept` |
| a client leaves | `Candcpp.Chatroom.remove` |
| a client is readable | `Candcpp.Chatroom.receive`, `Candcpp.Chatroom.broadcast` |
| a client is writable | `Candcpp.Chatroom.deliver` |

What `poll`, `accept` and `recv` return is chosen by the system, within what
`Candcpp.Chatroom.Allowed` says of them. Four fields of the state are not of the program:
they record which clients have been admitted and not closed, what `poll` has reported and
which of it has been examined, and which texts a client should have got since the last time
it got one.
-/

namespace Candcpp

open Cpp

/-- The flags of `poll`. -/
structure PollFlags where
  pollin : Bool := false
  pollout : Bool := false
  pollrdhup : Bool := false
  pollerr : Bool := false
  /-- Some flag that the program does not look at. -/
  other : Bool := false
  deriving DecidableEq, Repr

/-- **What `poll` may report** of a descriptor: errors, and what it was asked for. -/
def PollFlags.Answers (revents events : PollFlags) : Prop :=
  (revents.pollin = true → events.pollin = true) ∧
    (revents.pollout = true → events.pollout = true) ∧
    (revents.pollrdhup = true → events.pollrdhup = true)

instance (revents events : PollFlags) : Decidable (revents.Answers events) :=
  inferInstanceAs (Decidable (_ ∧ _))

structure PollFd where
  fd : ℤ
  events : PollFlags
  revents : PollFlags
  deriving DecidableEq, Repr

/-- `struct client_data`. -/
structure ClientData where
  /-- Null, or the descriptor of the client whose `buf` it points to. -/
  writeBuf : Option ℤ
  buf : List UInt8
  deriving DecidableEq, Repr

/-- Where the thread is. -/
inductive PollLoop where
  /-- It is about to call `poll`. -/
  | polling : PollLoop
  /-- It is at the test `i < user_counter + 1`. -/
  | scanning (i : ℤ) : PollLoop
  /-- It has left the loop. -/
  | stopped : PollLoop
  deriving DecidableEq, Repr

/-- One call of `send` for a client. -/
structure Sent where
  connfd : ℤ
  bytes : List UInt8
  /-- The texts received from others for this client since the last time. -/
  due : List (List UInt8)
  deriving DecidableEq, Repr

structure Chatroom where
  listenfd : ℤ
  users : ℤ → ClientData
  fds : Arr PollFd
  userCounter : ℤ
  loop : PollLoop
  /-- The clients that have been admitted and not closed. -/
  clients : List ℤ
  /-- What the last `poll` has reported, of every descriptor. -/
  polled : List (ℤ × PollFlags)
  /-- What of it has been examined, in this order. -/
  examined : List (ℤ × PollFlags)
  /-- The texts received from others since the client was last sent one. -/
  due : ℤ → List (List UInt8)
  sent : List Sent

/-- What the system calls of one pass through the body of the `for` loop return. -/
structure Outcomes where
  /-- The descriptor returned by `accept`. -/
  accepted : ℤ := -1
  /-- What `recv` has read; `none` when it fails. -/
  received : Option (List UInt8) := none
  deriving DecidableEq, Repr

namespace Chatroom

/-! ### The code -/

/-- `USER_LIMIT`. -/
def userLimit : ℕ := 5

/-- `BUFFER_SIZE`. -/
def bufferSize : ℕ := 64

/-- A buffer after `memset(buf, '\0', BUFFER_SIZE)`. -/
def cleared : List UInt8 := List.replicate bufferSize 0

/-- The state before the first `poll`. The objects of `users` are all zero. -/
def create (listenfd : ℤ) : Chatroom where
  listenfd := listenfd
  users := fun _ => { writeBuf := none, buf := cleared }
  fds :=
    { data := fun k =>
        if k = 0 then
          { fd := listenfd, events := { pollin := true, pollerr := true }, revents := {} }
        else
          { fd := -1, events := {}, revents := {} }
      size := userLimit + 1 }
  userCounter := 0
  loop := .polling
  clients := []
  polled := []
  examined := []
  due := fun _ => []
  sent := []

/-- A buffer read up to the first zero byte, as by `strlen`. -/
def cString (buf : List UInt8) : Exec (List UInt8) :=
  if 0 ∈ buf then pure (buf.takeWhile (· ≠ 0)) else throw .outOfRange

/-- The next pass through the loop. -/
def next (s : Chatroom) (i : ℤ) : Chatroom := { s with loop := .scanning (i + 1) }

/-- The listening socket is readable, and `accept` returns `connfd`. -/
def accept (s : Chatroom) (i connfd : ℤ) : Exec Chatroom :=
  if connfd < 0 then
    pure (s.next i)
  else if s.userCounter ≥ userLimit then
    -- it is told that there are too many users, and closed
    pure (s.next i)
  else do
    let userCounter := s.userCounter + 1
    let fds ← s.fds.putInt userCounter
      { fd := connfd
        events := { pollin := true, pollrdhup := true, pollerr := true }
        revents := {} }
    pure
      { s.next i with
        userCounter := userCounter
        fds := fds
        clients := s.clients ++ [connfd] }

/-- The client at position `i` is closed, and the last one takes its place. -/
def remove (s : Chatroom) (i : ℤ) : Exec Chatroom := do
  let slot ← s.fds.getInt i
  let last ← s.fds.getInt s.userCounter
  let fds ← s.fds.putInt i last
  pure
    { s.next (i - 1) with
      users := Function.update s.users slot.fd (s.users last.fd)
      fds := fds
      userCounter := s.userCounter - 1
      clients := s.clients.erase slot.fd
      due := Function.update s.due slot.fd [] }

/-- The positions `1, …, n` of the loop that gives the text of `connfd` to all the others. -/
def broadcast (connfd : ℤ) (text : List UInt8) (s : Chatroom) : ℕ → Exec Chatroom
  | 0 => pure s
  | n + 1 => do
    let s ← broadcast connfd text s n
    let slot ← s.fds.getInt (n + 1)
    if slot.fd = connfd then
      pure s
    else do
      let fds ← s.fds.putInt (n + 1)
        { slot with events := { slot.events with pollin := false, pollout := true } }
      pure
        { s with
          fds := fds
          users := Function.update s.users slot.fd
            { s.users slot.fd with writeBuf := some connfd }
          due := Function.update s.due slot.fd (s.due slot.fd ++ [text]) }

/-- The client at position `i` is readable, and `recv` returns `received`. -/
def receive (s : Chatroom) (i : ℤ) (received : Option (List UInt8)) : Exec Chatroom := do
  let slot ← s.fds.getInt i
  let connfd := slot.fd
  let bytes := received.getD []
  let buf := bytes ++ cleared.drop bytes.length
  let s := { s with users := Function.update s.users connfd { s.users connfd with buf := buf } }
  match received with
  | none => s.remove i
  | some [] => pure (s.next i)
  | some (b :: bytes) =>
    let s ← broadcast connfd (b :: bytes) s s.userCounter.toNat
    pure (s.next i)

/-- The client at position `i` is writable. Whatever `send` returns, the text has been sent. -/
def deliver (s : Chatroom) (i : ℤ) : Exec Chatroom := do
  let slot ← s.fds.getInt i
  let connfd := slot.fd
  match (s.users connfd).writeBuf with
  | none => pure (s.next i)
  | some sender =>
    let bytes ← cString (s.users sender).buf
    let fds ← s.fds.putInt i
      { slot with events := { slot.events with pollout := false, pollin := true } }
    pure
      { s.next i with
        users := Function.update s.users connfd { s.users connfd with writeBuf := none }
        fds := fds
        due := Function.update s.due connfd []
        sent := s.sent ++ [{ connfd := connfd, bytes := bytes, due := s.due connfd }] }

/-- The body of the `for` loop at position `i`. -/
def examine (s : Chatroom) (i : ℤ) (o : Outcomes) : Exec Chatroom := do
  let slot ← s.fds.getInt i
  let s := { s with examined := s.examined ++ [(slot.fd, slot.revents)] }
  if slot.fd = s.listenfd ∧ slot.revents.pollin = true then
    s.accept i o.accepted
  else if slot.revents.pollerr = true then
    pure (s.next i)
  else if slot.revents.pollrdhup = true then
    s.remove i
  else if slot.revents.pollin = true then
    s.receive i o.received
  else if slot.revents.pollout = true then
    s.deliver i
  else
    pure (s.next i)

/-! ### The program and the system -/

/-- What the system answers: to `poll`, or to the calls of one pass through the `for` loop. -/
inductive Act where
  /-- `poll` fails. -/
  | pollFails : Act
  /-- `poll` returns, with these `revents` at the positions `0, …, user_counter`. -/
  | poll (revents : ℕ → PollFlags) : Act
  | pass (o : Outcomes) : Act

/-- What `poll` writes into the array. -/
def report (s : Chatroom) (revents : ℕ → PollFlags) : Arr PollFd :=
  { s.fds with
    data := fun k =>
      if (k : ℤ) ≤ s.userCounter then
        { s.fds.data k with revents := revents k }
      else
        s.fds.data k }

/-- What the code does at a point of the loop. -/
def execAt (s : Chatroom) : PollLoop → Act → Exec Chatroom
  | .polling, .pollFails => pure { s with loop := .stopped }
  | .polling, .poll revents =>
    pure
      { s with
        fds := s.report revents
        loop := .scanning 0
        polled := entries (fun k => ((s.fds.data k).fd, revents k)) 0 s.userCounter.toNat
        examined := [] }
  | .scanning i, .pass o =>
    if i < s.userCounter + 1 then s.examine i o else pure { s with loop := .polling }
  | _, _ => pure s

def exec (s : Chatroom) (a : Act) : Exec Chatroom := s.execAt s.loop a

/-- **What the system may answer**, and when: `poll` reports what it was asked for, `accept`
returns no descriptor that is open, and `recv` returns at most as many bytes as it was asked
for. -/
def AllowedAt (s : Chatroom) : PollLoop → Act → Prop
  | .polling, .pollFails => True
  | .polling, .poll revents =>
    ∀ k < (s.userCounter + 1).toNat, (revents k).Answers (s.fds.data k).events
  | .scanning _, .pass o =>
    o.accepted ≠ s.listenfd ∧ o.accepted ∉ s.clients ∧
      (o.received.getD []).length ≤ bufferSize - 1
  | _, _ => False

/-- The answers the system may give next. -/
def Allowed (s : Chatroom) (a : Act) : Prop := s.AllowedAt s.loop a

instance (s : Chatroom) : (l : PollLoop) → (a : Act) → Decidable (s.AllowedAt l a)
  | .polling, .pollFails => inferInstanceAs (Decidable True)
  | .polling, .poll _ => inferInstanceAs (Decidable (∀ k < _, _))
  | .polling, .pass _ => inferInstanceAs (Decidable False)
  | .scanning _, .pollFails => inferInstanceAs (Decidable False)
  | .scanning _, .poll _ => inferInstanceAs (Decidable False)
  | .scanning _, .pass _ => inferInstanceAs (Decidable (_ ∧ _))
  | .stopped, .pollFails => inferInstanceAs (Decidable False)
  | .stopped, .poll _ => inferInstanceAs (Decidable False)
  | .stopped, .pass _ => inferInstanceAs (Decidable False)

instance (s : Chatroom) (a : Act) : Decidable (s.Allowed a) :=
  inferInstanceAs (Decidable (s.AllowedAt s.loop a))

/-- The runs of the server on some listening socket. -/
def program : Program Chatroom Act where
  init := fun s => ∃ listenfd, 0 ≤ listenfd ∧ s = create listenfd
  allowed := Allowed
  exec := exec

instance (s : Chatroom) (a : Act) : Decidable (program.allowed s a) :=
  inferInstanceAs (Decidable (s.Allowed a))

end Chatroom

end Candcpp
