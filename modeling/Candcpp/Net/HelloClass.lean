import Candcpp.Lts
import Candcpp.Concurrent.WaitSet
import Candcpp.Net.Server

/-!
# The server with one loop and a pool of threads

The server of `project/30days_make_cpp_server/4_hello_class`. One thread runs the event loop;
what is to be done on an event, it puts into the queue of a pool of threads. So it is the
threads of the pool that accept the clients and that read from them.

| code | definition |
|---|---|
| `EventLoop::loop`, `Channel::handleEvent` | `Candcpp.HelloClass.loop` |
| a thread of the pool | `Candcpp.HelloClass.execWorker` |
| `Acceptor::acceptConnection` | `Candcpp.HelloClass.accept` |
| `Server::handleNewConnection1` | `Candcpp.HelloWorker.constructed`, `Candcpp.HelloWorker.entered` |
| `Connection::echo`, `Server::handleDeleteConnection` | `Candcpp.Server.echo` |

The channels are edge-triggered, and an edge is reported whether or not the callback of an
earlier one has run. So one connection can have several calls of `echo`, in the queue and in
several threads at once. One of them may delete the connection while the others still need
it, and `Candcpp.HelloClass.Single` is the condition that this does not happen: under it no
step uses a connection that has been deleted (`Candcpp.HelloClass.run_echoSafe`).
-/

namespace Candcpp

open Cpp

/-- A callback, that of the channel of the acceptor or that of a connection. -/
inductive HelloTask where
  | acceptConnection : HelloTask
  | echo (this : Addr) : HelloTask
  deriving DecidableEq, Repr

/-- Where a thread of the pool is. -/
inductive HelloWorker where
  /-- It is about to take a task from the queue. -/
  | idle : HelloWorker
  /-- `serverSocket->accept()` comes next. -/
  | accepting : HelloWorker
  /-- `connections[clientSocket->getFd()] = conn` comes next. -/
  | constructed (conn : Addr) : HelloWorker
  /-- `conn->setDeleteConnectionCallback(cb)` comes next. -/
  | entered (conn : Addr) : HelloWorker
  | echo (call : Echo) : HelloWorker
  deriving DecidableEq, Repr

namespace HelloWorker

/-- The connection that `handleNewConnection1` is still busy with. -/
def admitting : HelloWorker → Option Addr
  | .constructed a | .entered a => some a
  | _ => none

/-- The connection whose `echo` is running. -/
def this : HelloWorker → Option Addr
  | .echo call => some call.this
  | _ => none

/-- The first step of a task. -/
def start : HelloTask → HelloWorker
  | .acceptConnection => .accepting
  | .echo a => .echo (.reading a)

/-- Where a call of `echo` leads. -/
def after : Option Echo → HelloWorker
  | some call => .echo call
  | none => .idle

end HelloWorker

structure HelloClass where
  server : Server
  /-- The channels returned by `getActiveChannels` that have not been handled yet, each with
  its callback. -/
  events : List HelloTask
  /-- The queue of the pool. -/
  tasks : List HelloTask
  workers : List HelloWorker

namespace HelloClass

/-! ### The code -/

/-- The server whose pool has `size` threads, before anything has happened. -/
def create (size : ℕ) : HelloClass where
  server := .create
  events := []
  tasks := []
  workers := List.replicate size .idle

/-- The loop handles the next channel, which must not have been deleted. -/
def loop (s : HelloClass) : List HelloTask → Exec HelloClass
  | [] => pure s
  | .acceptConnection :: events =>
    pure { s with events := events, tasks := s.tasks ++ [.acceptConnection] }
  | .echo a :: events => do
    let _ ← s.server.read a
    pure { s with events := events, tasks := s.tasks ++ [.echo a] }

/-- The thread `i` calls `accept`, and gets a client on `fd`, or a null pointer. -/
def accept (s : HelloClass) (i : ℕ) : Option ℕ → Exec HelloClass
  -- the address of the client is printed in any case
  | none => throw .nullDeref
  | some fd =>
    pure
      { s with
        server := s.server.construct fd
        workers := s.workers.set i (.constructed s.server.objects.length) }

/-- The next step of the thread `i`, except for `accept`. -/
def execWorker (s : HelloClass) (i : ℕ) (n : ReadResult) : HelloWorker → Exec HelloClass
  | .idle =>
    match s.tasks with
    | [] => pure s
    | task :: tasks =>
      pure { s with tasks := tasks, workers := s.workers.set i (.start task) }
  | .accepting => pure s
  | .constructed conn => do
    let server ← s.server.enter conn
    pure { s with server := server, workers := s.workers.set i (.entered conn) }
  | .entered conn => do
    let server ← s.server.setCallback conn
    pure { s with server := server, workers := s.workers.set i .idle }
  | .echo call => do
    let (next, server) ← s.server.echo call n
    pure { s with server := server, workers := s.workers.set i (.after next) }

/-! ### The program -/

/-- Who takes a step, and what the system returns. -/
inductive Act where
  /-- `epoll_wait` reports channels with the event `EPOLLIN`. -/
  | poll (events : List HelloTask) : Act
  /-- The loop goes on. -/
  | loop : Act
  /-- `accept` returns to the thread `i`. -/
  | accept (i : ℕ) (fd : Option ℕ) : Act
  /-- The thread `i` goes on; `n` is what `::read` returns, if it is called. -/
  | worker (i : ℕ) (n : ReadResult) : Act
  deriving DecidableEq, Repr

def exec (s : HelloClass) : Act → Exec HelloClass
  | .poll events => pure { s with events := events }
  | .loop => s.loop s.events
  | .accept i fd => s.accept i fd
  | .worker i n =>
    match s.workers[i]? with
    | some worker => s.execWorker i n worker
    | none => pure s

/-- The channel is registered: that of the acceptor always, that of a connection until it
is closed. -/
def registered (s : HelloClass) : HelloTask → Bool
  | .acceptConnection => true
  | .echo a => s.server.objects[a]?.any Connection.alive

/-- **What may happen next**: the loop is given registered channels, each of them once, and
`accept` returns a descriptor that is not in use. -/
def Allowed (s : HelloClass) : Act → Prop
  | .poll events => s.events = [] ∧ events.Nodup ∧ ∀ e ∈ events, s.registered e = true
  | .loop => s.events ≠ []
  | .accept i fd => s.workers[i]? = some .accepting ∧ ∀ k ∈ fd, ¬s.server.IsOpen k
  | .worker i _ => i < s.workers.length

instance (s : HelloClass) : (a : Act) → Decidable (s.Allowed a)
  | .poll _ => inferInstanceAs (Decidable (_ ∧ _))
  | .loop => inferInstanceAs (Decidable (_ ≠ _))
  | .accept _ _ => inferInstanceAs (Decidable (_ ∧ _))
  | .worker _ _ => inferInstanceAs (Decidable (_ < _))

/-- The runs of a server whose pool has `size` threads. -/
def program (size : ℕ) : Program HelloClass Act where
  init := fun s => s = create size
  allowed := Allowed
  exec := exec

instance (size : ℕ) (s : HelloClass) (a : Act) : Decidable ((program size).allowed s a) :=
  inferInstanceAs (Decidable (s.Allowed a))

/-! ### What is to be shown -/

/-- The connection that a step of the thread `i` deletes. -/
def deleting (s : HelloClass) (i : ℕ) : Option Addr :=
  match s.workers[i]? with
  | some (.echo (.erased _ conn)) => conn
  | _ => none

/-- The call of `echo` in the thread `i` is the only one there is or will be for the
connection at `a`: no other thread executes one, and none is in the queue or about to be
put into it. -/
def Alone (s : HelloClass) (i : ℕ) (a : Addr) : Prop :=
  .echo a ∉ s.events ∧ .echo a ∉ s.tasks ∧
    ∀ j < s.workers.length, j ≠ i → s.workers[j]?.bind HelloWorker.this ≠ some a

/-- A step deletes a connection only where no other call of `echo` needs it. -/
def Single (s : HelloClass) : Act → Prop
  | .worker i _ => ∀ a ∈ s.deleting i, s.Alone i a
  | _ => True

instance (s : HelloClass) (i : ℕ) (a : Addr) : Decidable (s.Alone i a) :=
  inferInstanceAs (Decidable (_ ∧ _ ∧ ∀ j < _, _ → _))

instance (s : HelloClass) : (act : Act) → Decidable (s.Single act)
  | .poll _ => inferInstanceAs (Decidable True)
  | .loop => inferInstanceAs (Decidable True)
  | .accept _ _ => inferInstanceAs (Decidable True)
  | .worker _ _ => inferInstanceAs (Decidable (∀ a ∈ _, _))

/-- **No call of `echo` uses a connection that has been deleted**: its own connection has
not been, nor the one that it is about to delete. -/
structure Safe (s : HelloClass) : Prop where
  running : ∀ (i : ℕ) call, s.workers[i]? = some (.echo call) → ∃ c, s.server.Live call.this c
  deleting : ∀ i a, s.deleting i = some a → ∃ c, s.server.Live a c

end HelloClass

end Candcpp
