import Candcpp.Lts
import Candcpp.Concurrent.WaitSet
import Candcpp.Net.Server

/-!
# The server with sub-reactors

The server of `project/30days_make_cpp_server/5_main_sub_reactor`. The main reactor, a thread
of its own, accepts the clients and reads the standard input; each of the sub-reactors, every
one in a thread of the pool, reads from the clients whose descriptor is assigned to it.

| code | definition |
|---|---|
| `Server::handleNewConnection` | the first three phases of `Candcpp.MainReactor` |
| `Server::echoAll` | the others |
| what the main reactor does in a phase | `Candcpp.MainSubReactor.execMain` |
| `EventLoop::loop`, `Channel::handleEvent` in a sub-reactor | `Candcpp.MainSubReactor.execReactor` |
| `Connection::echo`, `Server::handleDeleteConnection` | `Candcpp.Server.echo` |

The constructor of a connection registers its channel with the `Epoll` of the sub-reactor
before it returns. From then on the sub-reactor may find the channel among the active ones.
Which of them `epoll_wait` reports, and when, is left to the system.

A thread that calls an empty `std::function` throws `std::bad_function_call`, which nobody
catches: the run of the server ends there, as it does at any other fault.
-/

namespace Candcpp

open Cpp

/-- Where the thread of the main reactor is. -/
inductive MainReactor where
  /-- It waits for a client or for the standard input. -/
  | polling : MainReactor
  /-- `handleNewConnection`: `connections[clientSocket->getFd()] = conn` comes next. -/
  | constructed (conn : Addr) : MainReactor
  /-- `handleNewConnection`: `conn->setDeleteConnectionCallback(cb)` comes next. -/
  | entered (conn : Addr) : MainReactor
  /-- `echoAll`: the test `iter != connections.end()`, and if it succeeds the access to
  `*iter`, come next. -/
  | visiting (iter : WithTop ℕ) : MainReactor
  /-- `echoAll`: `conn->write(content)` comes next. -/
  | writing (iter : ℕ) (conn : Ptr) : MainReactor
  /-- `echoAll`: `iter++` comes next. -/
  | advancing (iter : ℕ) : MainReactor
  deriving DecidableEq

namespace MainReactor

/-- The connection that `handleNewConnection` is still busy with. -/
def admitting : MainReactor → Option Addr
  | .constructed a | .entered a => some a
  | _ => none

/-- The key of the entry at which the iterator of `echoAll` stands. -/
def iterator : MainReactor → Option ℕ
  | .visiting (iter : ℕ) => some iter
  | .writing iter _ | .advancing iter => some iter
  | _ => none

end MainReactor

structure SubReactor where
  /-- The channels returned by `getActiveChannels` that have not been handled yet, each with
  the address of its connection. -/
  events : List Addr
  /-- The call of `echo` that is running. -/
  call : Option Echo
  deriving DecidableEq, Repr

namespace SubReactor

/-- The connections that it is going to use. -/
def pending (r : SubReactor) : List Addr := (r.call.map Echo.this).toList ++ r.events

end SubReactor

structure MainSubReactor where
  server : Server
  main : MainReactor
  reactors : List SubReactor
  /-- The descriptors that have had an entry ever since `echoAll` was last called. -/
  connected : Finset ℕ
  /-- The descriptors to which that call has written, in order. -/
  written : List ℕ

namespace MainSubReactor

/-! ### The code -/

/-- The server with `size` sub-reactors, before anything has happened. -/
def create (size : ℕ) : MainSubReactor where
  server := .create
  main := .polling
  reactors := List.replicate size { events := [], call := none }
  connected := ∅
  written := []

/-- The acceptor has a new client on `fd`. The index of its sub-reactor is a remainder, and
not defined where there is none. -/
def accept (s : MainSubReactor) (fd : ℕ) : Exec MainSubReactor :=
  if s.reactors.length = 0 then
    throw .outOfRange
  else
    pure
      { s with
        server := s.server.construct fd
        main := .constructed s.server.objects.length }

/-- `echoAll` up to its loop; `::read` returns `n`. -/
def stdin (s : MainSubReactor) (n : ℤ) : MainSubReactor :=
  if n ≤ 0 then
    s
  else
    { s with
      main := .visiting s.server.connections.first
      connected := s.server.connections.keys
      written := [] }

/-- The next step of the main reactor. -/
def execMain (s : MainSubReactor) : MainReactor → Exec MainSubReactor
  | .polling => pure s
  | .constructed conn => do
    let server ← s.server.enter conn
    pure { s with server := server, main := .entered conn }
  | .entered conn => do
    let server ← s.server.setCallback conn
    pure { s with server := server, main := .polling }
  | .visiting ⊤ => pure { s with main := .polling }
  | .visiting (iter : ℕ) =>
    match s.server.connections.val iter with
    | some conn => pure { s with main := .writing iter conn }
    -- the iterator is not valid any more
    | none => throw .dangling
  | .writing _ none => throw .nullDeref
  | .writing iter (some conn) => do
    let c ← s.server.read conn
    pure { s with main := .advancing iter, written := s.written ++ [c.fd] }
  | .advancing iter =>
    match s.server.connections.val iter with
    | some _ => pure { s with main := .visiting (s.server.connections.next iter) }
    | none => throw .dangling

/-- The next step of the sub-reactor `r`, in the state `this`: of the call of `echo` that is
running, or of the loop over the active channels. -/
def execReactor (s : MainSubReactor) (r : ℕ) (n : ReadResult) :
    SubReactor → Exec MainSubReactor
  | { events := events, call := some call } => do
    let (next, server) ← s.server.echo call n
    pure
      { s with
        server := server
        reactors := s.reactors.set r { events := events, call := next }
        connected := s.connected ∩ server.connections.keys }
  | { events := a :: events, call := none } => do
    -- `channel->handleEvent()`
    let _ ← s.server.read a
    pure { s with reactors := s.reactors.set r { events := events, call := some (.reading a) } }
  | { events := [], call := none } => pure s

/-- The sub-reactor `r` takes the active channels that `epoll_wait` reports. -/
def poll (s : MainSubReactor) (r : ℕ) (events : List Addr) : MainSubReactor :=
  { s with reactors := s.reactors.set r { events := events, call := none } }

/-! ### The program -/

/-- Who takes a step, and what the system returns. -/
inductive Act where
  /-- `accept` returns `fd` to the main reactor. -/
  | accept (fd : ℕ) : Act
  /-- The main reactor reads `n` bytes from the standard input. -/
  | stdin (n : ℤ) : Act
  /-- The main reactor goes on. -/
  | main : Act
  /-- The sub-reactor `r` is given active channels, those with the event `EPOLLIN`. -/
  | poll (r : ℕ) (events : List Addr) : Act
  /-- The sub-reactor `r` goes on; `n` is what `::read` returns, if it is called. -/
  | reactor (r : ℕ) (n : ReadResult) : Act
  deriving DecidableEq, Repr

def exec (s : MainSubReactor) : Act → Exec MainSubReactor
  | .accept fd => s.accept fd
  | .stdin n => pure (s.stdin n)
  | .main => s.execMain s.main
  | .poll r events => pure (s.poll r events)
  | .reactor r n =>
    match s.reactors[r]? with
    | some this => s.execReactor r n this
    | none => pure s

/-- The channel of the connection at `a` is registered with the sub-reactor `r`: its index
is `clientSocket->getFd() % subReactors.size()`. -/
def registered (s : MainSubReactor) (r : ℕ) (a : Addr) : Bool :=
  s.server.objects[a]?.any fun c => c.alive && c.fd % s.reactors.length == r

/-- **What may happen next**: the main reactor is given a client whose descriptor is not in
use, a sub-reactor is given channels that are registered with it, each of them once. -/
def Allowed (s : MainSubReactor) : Act → Prop
  | .accept fd => s.main = .polling ∧ ¬s.server.IsOpen fd
  | .stdin _ => s.main = .polling
  | .main => s.main ≠ .polling
  | .poll r events =>
    s.reactors[r]? = some { events := [], call := none } ∧ events.Nodup ∧
      ∀ a ∈ events, s.registered r a = true
  | .reactor r _ => r < s.reactors.length

instance (s : MainSubReactor) : (a : Act) → Decidable (s.Allowed a)
  | .accept _ => inferInstanceAs (Decidable (_ ∧ _))
  | .stdin _ => inferInstanceAs (Decidable (_ = _))
  | .main => inferInstanceAs (Decidable (_ ≠ _))
  | .poll _ _ => inferInstanceAs (Decidable (_ ∧ _))
  | .reactor _ _ => inferInstanceAs (Decidable (_ < _))

/-- The runs of a server with `size` sub-reactors. -/
def program (size : ℕ) : Program MainSubReactor Act where
  init := fun s => s = create size
  allowed := Allowed
  exec := exec

instance (size : ℕ) (s : MainSubReactor) (a : Act) : Decidable ((program size).allowed s a) :=
  inferInstanceAs (Decidable (s.Allowed a))

end MainSubReactor

end Candcpp
