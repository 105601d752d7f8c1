import Candcpp.Net.ListenLoop
import Candcpp.Net.HelloClass
import Candcpp.Timer.CloseNonactivity

/-!
# Servers that watch a listening socket for edges

Four servers register the listening socket with `EPOLLIN | EPOLLET`, and accept one connection for
each event on it. For the sockets of the clients two of them know better: as an event on such a
socket *is not triggered again*, they receive in a loop, until nothing is left.

| source | what it does with an event | server |
|---|---|---|
| `LT_ET_test.cpp` | `Candcpp.EdgeClients.et` | `Candcpp.EdgeServer.et` |
| `process_tcp_udp_simultaneously.cpp` | `Candcpp.EdgeClients.processTcpUdp` | `Candcpp.EdgeServer.processTcpUdp` |
| `close_nonactivity_connection.cpp` | `Candcpp.CloseNonactivity.handle` | `Candcpp.EdgeServer.closeNonactivity` |
| `4_hello_class` | `Candcpp.HelloClass.exec` | `Candcpp.EdgeServer.helloClass` |

The first three are loops of one thread (`Candcpp.ListenLoop`); in the last one the event goes
through a queue to a thread of a pool, and several can be under way. All are servers of the queue
of the clients that have not been accepted, which is watched for edges (`Candcpp.EdgeQueue`). **So
the queue is empty whenever an event on the listening socket has been handled, as long as each
client connects while no earlier one is still to be reported or handled**
(`Candcpp.EdgeServer.run_drained`); a client that connects before the edge of an earlier one is
reported is left in the queue for ever (`Candcpp.EdgeServer.pending_pos_of_merged`).
-/

namespace Candcpp

open Cpp

open CloseNonactivity (Recv)

/-! ### Two loops over events -/

/-- The descriptors of the clients, those of them that are watched, and what has been sent. -/
structure EdgeClients where
  opened : Finset ℕ
  watched : Finset ℕ
  sent : List (ℕ × List ℕ)

/-- An event, with what the system calls of its handler return. -/
structure EdgeEvent where
  /-- `events[i].data.fd`. -/
  fd : ℕ
  /-- `events[i].events & EPOLLIN`. -/
  epollin : Bool
  /-- What `accept` returns. -/
  connfd : ℕ
  /-- What `recv` or `recvfrom` return, until they would block. -/
  recvs : List Recv

namespace EdgeClients

/-- There is no client. -/
def empty : EdgeClients where
  opened := ∅
  watched := ∅
  sent := []

/-- `close(fd)`, after which the descriptor is not watched either. -/
def close (s : EdgeClients) (fd : ℕ) : EdgeClients :=
  { s with opened := s.opened.erase fd, watched := s.watched.erase fd }

/-- `accept` has returned `connfd`, and `addfd` registers it. -/
def onAccept (s : EdgeClients) (connfd : ℕ) : EdgeClients :=
  { s with opened := insert connfd s.opened, watched := insert connfd s.watched }

/-- `send(fd, buf, ret, 0)`. -/
def send (s : EdgeClients) (fd : ℕ) (data : List ℕ) : EdgeClients :=
  { s with sent := s.sent ++ [(fd, data)] }

/-- The loop that receives from a client, and sends back what it gets if `reply` is set. When the
stream has ended the descriptor is closed, but the loop is not left: the next `recv` fails, as the
descriptor is closed, and so does another `close`. -/
def recvLoop (reply : Bool) (fd : ℕ) (s : EdgeClients) : List Recv → EdgeClients
  | [] => if fd ∈ s.opened then s else s.close fd
  | r :: rs =>
    if fd ∈ s.opened then
      match r with
      | .error again => if again then s else s.close fd
      | .bytes [] => recvLoop reply fd (s.close fd) rs
      | .bytes (x :: xs) => recvLoop reply fd (if reply then s.send fd (x :: xs) else s) rs
    else s.close fd

/-- The body of the loop of `et`. -/
def et (listenfd : ℕ) (s : EdgeClients) (ev : EdgeEvent) : EdgeClients :=
  if ev.fd = listenfd then s.onAccept ev.connfd
  else if ev.epollin then recvLoop false ev.fd s ev.recvs
  else s

/-- The body of the loop in `process_tcp_udp_simultaneously.cpp`. -/
def processTcpUdp (listenfd udpfd : ℕ) (s : EdgeClients) (ev : EdgeEvent) : EdgeClients :=
  if ev.fd = listenfd then s.onAccept ev.connfd
  else if ev.fd = udpfd then
    match ev.recvs with
    | .bytes (x :: xs) :: _ => s.send udpfd (x :: xs)
    | _ => s
  else if ev.epollin then recvLoop true ev.fd s ev.recvs
  else s

end EdgeClients

namespace ListenLoop

/-- `epoll_wait` and `et`, over and over. -/
def et (listenfd : ℕ) : ListenLoop EdgeClients EdgeEvent where
  init := fun s => s = .empty
  running := fun _ => true
  listens := fun ev => ev.fd = listenfd
  handle := fun s ev => pure (s.et listenfd ev)
  wrap := fun s _ => pure s

/-- The main loop of `process_tcp_udp_simultaneously.cpp`. -/
def processTcpUdp (listenfd udpfd : ℕ) : ListenLoop EdgeClients EdgeEvent where
  init := fun s => s = .empty
  running := fun _ => true
  listens := fun ev => ev.fd = listenfd
  handle := fun s ev => pure (s.processTcpUdp listenfd udpfd ev)
  wrap := fun s _ => pure s

/-- The main loop of `close_nonactivity_connection.cpp`. -/
def closeNonactivity (cfg : CloseNonactivity.Config) :
    ListenLoop CloseNonactivity.World CloseNonactivity.Event where
  init := (CloseNonactivity.program cfg).init
  running := fun w => !w.main.stopServer
  listens := fun ev => ev.fd = cfg.listenfd
  handle := CloseNonactivity.handle cfg
  wrap := CloseNonactivity.finish

end ListenLoop

/-! ### The server with a pool of threads -/

/-- The server, and the queue of the clients that have not been accepted. -/
structure HelloListener where
  server : HelloClass
  queue : EdgeQueue

namespace HelloListener

/-- A client connects, or the server takes a step. -/
inductive Act where
  | arrive : Act
  | act (a : HelloClass.Act) : Act
  deriving DecidableEq, Repr

/-- The thread executes a callback of the acceptor, after its `accept`. -/
def isAdmitting (worker : HelloWorker) : Bool := worker.admitting.isSome

/-- The thread gives a connection its callback next. -/
def isEntered : HelloWorker → Bool
  | .entered _ => true
  | _ => false

/-- A step of the server takes a connection from the queue with `accept`, and its callback ends
when the connection has got its own callback. -/
def effect (s : HelloListener) : Act → EdgeQueue.Effect
  | .arrive => .arrive
  | .act (.poll events) => if .acceptConnection ∈ events then .report else .none
  | .act .loop => .none
  | .act (.accept _ _) => .take
  | .act (.worker i _) => if s.server.workers[i]?.any isEntered then .finish else .none

/-- The channel of the acceptor is reported only if a client has connected since it was reported
before. -/
def allowed (s : HelloListener) : Act → Prop
  | .arrive => True
  | .act a => s.server.Allowed a ∧ (s.effect (.act a) = .report → s.queue.edge = true)

def exec (s : HelloListener) (a : Act) : Exec HelloListener :=
  let queue := s.queue.act (s.effect a)
  match a with
  | .arrive => pure { s with queue := queue }
  | .act a => do
    let server ← s.server.exec a
    pure { server := server, queue := queue }

/-- The runs of a server whose pool has `size` threads. -/
def program (size : ℕ) : Program HelloListener Act where
  init := fun s => s = { server := .create size, queue := .empty }
  allowed := allowed
  exec := exec

/-- The calls of `acceptConnection` that wait for their `accept`. -/
def taking (s : HelloListener) : ℕ :=
  s.server.events.count .acceptConnection + s.server.tasks.count .acceptConnection +
    s.server.workers.countP (· = .accepting)

/-- The calls of `acceptConnection` that have not ended. -/
def busy (s : HelloListener) : ℕ := s.taking + s.server.workers.countP isAdmitting

variable {s s' : HelloListener} {t t' : HelloClass} {a : Act} {i : ℕ} {worker worker' : HelloWorker}

/-- The numbers of calls, of a state of the server. -/
theorem countP_set (p : HelloWorker → Bool) (h : t.workers[i]? = some worker)
    (worker' : HelloWorker) :
    (t.workers.set i worker').countP p + (if p worker then 1 else 0) =
      t.workers.countP p + (if p worker' then 1 else 0) := by
  obtain ⟨hi, rfl⟩ := List.getElem?_eq_some_iff.mp h
  rw [List.countP_set hi]
  split_ifs with hp hp'
  all_goals try omega
  all_goals
    have hpos := List.countP_pos_iff.mpr ⟨t.workers[i], List.getElem_mem hi, hp⟩
    omega

/-- A step of a thread takes a call of `acceptConnection` from the queue, or ends one, or has
nothing to do with any. -/
theorem execWorker_counts {n : ReadResult} (hi : t.workers[i]? = some worker)
    (h : t.execWorker i n worker = pure t') :
    t'.events = t.events ∧
      t'.tasks.count .acceptConnection + t'.workers.countP (· = .accepting) =
        t.tasks.count .acceptConnection + t.workers.countP (· = .accepting) ∧
      t'.workers.countP isAdmitting + (if isEntered worker then 1 else 0) =
        t.workers.countP isAdmitting := by
  have htaking := countP_set (fun w => w = .accepting) hi
  have hadmitting := countP_set isAdmitting hi
  cases worker with
  | idle =>
    rw [HelloClass.execWorker] at h
    cases htasks : t.tasks with
    | nil =>
      rw [htasks] at h
      obtain rfl := Exec.pure_inj.mp h
      exact ⟨rfl, by rw [htasks], rfl⟩
    | cons task tasks =>
      rw [htasks] at h
      obtain rfl := Exec.pure_inj.mp h
      specialize htaking (.start task)
      specialize hadmitting (.start task)
      -- a call of `acceptConnection` leaves the queue and is under way
      cases task with
      | acceptConnection =>
        simp [HelloWorker.start, isAdmitting, HelloWorker.admitting, isEntered]
          at htaking hadmitting ⊢
        omega
      | echo a =>
        simp [HelloWorker.start, isAdmitting, HelloWorker.admitting, isEntered]
          at htaking hadmitting ⊢
        omega
  | accepting =>
    obtain rfl := Exec.pure_inj.mp h
    exact ⟨rfl, rfl, rfl⟩
  | constructed conn =>
    obtain ⟨server, -, h⟩ := Exec.bind_eq_pure.mp h
    obtain rfl := Exec.pure_inj.mp h
    specialize htaking (.entered conn)
    specialize hadmitting (.entered conn)
    simp_all [isAdmitting, HelloWorker.admitting, isEntered]
  | entered conn =>
    obtain ⟨server, -, h⟩ := Exec.bind_eq_pure.mp h
    obtain rfl := Exec.pure_inj.mp h
    -- here the call of `acceptConnection` ends
    specialize htaking .idle
    specialize hadmitting .idle
    simp_all [isAdmitting, HelloWorker.admitting, isEntered]
  | echo call =>
    obtain ⟨⟨next, server⟩, -, h⟩ := Exec.bind_eq_pure.mp h
    obtain rfl := Exec.pure_inj.mp h
    specialize htaking (.after next)
    specialize hadmitting (.after next)
    cases next <;> simp_all [isAdmitting, HelloWorker.admitting, isEntered, HelloWorker.after]

/-- The loop passes a call of `acceptConnection` on to the pool. -/
theorem loop_counts (h : t.loop t.events = pure t') :
    t'.events.count .acceptConnection + t'.tasks.count .acceptConnection =
        t.events.count .acceptConnection + t.tasks.count .acceptConnection ∧
      t'.workers = t.workers := by
  cases hevents : t.events with
  | nil =>
    rw [hevents] at h
    obtain rfl := Exec.pure_inj.mp h
    exact ⟨by rw [hevents], rfl⟩
  | cons task events =>
    rw [hevents] at h
    cases task with
    | acceptConnection =>
      obtain rfl := Exec.pure_inj.mp h
      refine ⟨?_, rfl⟩
      show List.count _ events + List.count _ (t.tasks ++ [.acceptConnection]) = _
      rw [List.count_append, List.count_cons_self, List.count_cons_self, List.count_nil]
      omega
    | echo a =>
      obtain ⟨c, -, h⟩ := Exec.bind_eq_pure.mp h
      obtain rfl := Exec.pure_inj.mp h
      refine ⟨?_, rfl⟩
      rw [List.count_append, List.count_cons_of_ne (by simp), List.count_cons_of_ne (by simp),
        List.count_nil, Nat.add_zero]

/-- **What a step does** to the queue, and to the calls of `acceptConnection`. -/
theorem exec_eq {a : Act} (hall : s.allowed a) (h : s.exec a = pure s') :
    s'.queue = s.queue.act (s.effect a) ∧
      s'.taking + (if s.effect a = .take then 1 else 0) =
        s.taking + (if s.effect a = .report then 1 else 0) ∧
      s'.busy + (if s.effect a = .finish then 1 else 0) =
        s.busy + (if s.effect a = .report then 1 else 0) := by
  obtain ⟨t, queue⟩ := s
  cases a with
  | arrive =>
    obtain rfl := Exec.pure_inj.mp h
    exact ⟨rfl, rfl, rfl⟩
  | act a =>
    obtain ⟨t', ht, h⟩ := Exec.bind_eq_pure.mp h
    obtain rfl := Exec.pure_inj.mp h
    refine ⟨rfl, ?_⟩
    cases a with
    | poll events =>
      obtain rfl := Exec.pure_inj.mp ht
      obtain ⟨⟨hnil, hnodup, -⟩, -⟩ := hall
      -- there are no events left, and the array reports the acceptor at most once
      have hnone : t.events = [] := hnil
      have hcount : events.count .acceptConnection =
          if .acceptConnection ∈ events then 1 else 0 := by
        split_ifs with hmem
        · exact List.count_eq_one_of_mem hnodup hmem
        · exact List.count_eq_zero_of_not_mem hmem
      simp only [effect, busy, taking, hnone, hcount, List.count_nil]
      split_ifs <;> simp_all
      omega
    | loop =>
      obtain ⟨hcount, hworkers⟩ := loop_counts (show t.loop t.events = pure t' from ht)
      simp only [effect, busy, taking, reduceCtorEq, if_false, hworkers]
      omega
    | accept i fd =>
      obtain ⟨⟨hi, -⟩, -⟩ := hall
      cases fd with
      | none => exact absurd ht.symm (Exec.pure_ne_throw _ _)
      | some fd =>
        obtain rfl := Exec.pure_inj.mp ht
        have htaking := countP_set (fun w => w = .accepting) hi
          (.constructed t.server.objects.length)
        have hadmitting := countP_set isAdmitting hi (.constructed t.server.objects.length)
        simp [isAdmitting, HelloWorker.admitting] at htaking hadmitting
        simp [effect, busy, taking]
        omega
    | worker i n =>
      obtain ⟨worker, hi⟩ : ∃ worker, t.workers[i]? = some worker :=
        ⟨_, List.getElem?_eq_getElem hall.1⟩
      have hexec : t.execWorker i n worker = pure t' := by
        rw [← ht, HelloClass.exec, hi]
      obtain ⟨hevents, htaking, hadmitting⟩ := execWorker_counts hi hexec
      simp only [effect, busy, taking, hi, Option.any_some, hevents]
      split_ifs at hadmitting ⊢ <;> simp_all
      all_goals omega

/-- **The server with a pool as a server** of the queue of clients. -/
def edgeServer (size : ℕ) : EdgeQueue.Server HelloListener Act where
  lts := (program size).lts
  queue := HelloListener.queue
  busy := busy
  taking := taking
  effect := effect
  init_eq := by
    rintro s rfl
    refine ⟨rfl, ?_⟩
    simp [busy, taking, HelloClass.create, isAdmitting, HelloWorker.admitting]
  taking_le := fun s => Nat.le_add_right _ _
  queue_eq := fun s a s' h => (exec_eq h.1 h.2).1
  edge_eq := by
    intro s a s' h he
    match a, h.1, he with
    | .act a, ⟨_, hedge⟩, he => exact hedge he
  taking_eq := fun s a s' h => (exec_eq h.1 h.2).2.1
  busy_eq := fun s a s' h => (exec_eq h.1 h.2).2.2

end HelloListener

/-! ### The four servers -/

/-- **The servers** that watch the listening socket for edges. -/
inductive EdgeServer where
  /-- `et` of `LT_ET_test.cpp`. -/
  | et (listenfd : ℕ) : EdgeServer
  /-- `process_tcp_udp_simultaneously.cpp`. -/
  | processTcpUdp (listenfd udpfd : ℕ) : EdgeServer
  /-- `close_nonactivity_connection.cpp`. -/
  | closeNonactivity (cfg : CloseNonactivity.Config) : EdgeServer
  /-- The `Acceptor` of `4_hello_class`, with a pool of `size` threads. -/
  | helloClass (size : ℕ) : EdgeServer

namespace EdgeServer

/-- The states of a server, with the queue of its clients. -/
def State : EdgeServer → Type
  | .et _ => ListenLoop.World EdgeClients EdgeEvent
  | .processTcpUdp _ _ => ListenLoop.World EdgeClients EdgeEvent
  | .closeNonactivity _ => ListenLoop.World CloseNonactivity.World CloseNonactivity.Event
  | .helloClass _ => HelloListener

/-- The steps of a server and of its clients. -/
def Act : EdgeServer → Type
  | .et _ => ListenLoop.Act EdgeEvent
  | .processTcpUdp _ _ => ListenLoop.Act EdgeEvent
  | .closeNonactivity _ => ListenLoop.Act CloseNonactivity.Event
  | .helloClass _ => HelloListener.Act

/-- The runs of a server, and what its steps do to the queue. -/
def server : (w : EdgeServer) → EdgeQueue.Server w.State w.Act
  | .et listenfd => (ListenLoop.et listenfd).server
  | .processTcpUdp listenfd udpfd => (ListenLoop.processTcpUdp listenfd udpfd).server
  | .closeNonactivity cfg => (ListenLoop.closeNonactivity cfg).server
  | .helloClass size => HelloListener.edgeServer size

/-- **The queue of clients is empty whenever an event on the listening socket has been handled**,
in a run in which each client connects while there is no event on it to be reported or handled; and
a client that waits while no event is being handled will be reported. -/
theorem run_drained (w : EdgeServer) {s₀ s : w.State} {l : List (w.State × w.Act)}
    (hinit : w.server.lts.init s₀) (hl : w.server.lts.Run s₀ l s)
    (halone : ∀ p ∈ l, w.server.effect p.1 p.2 = .arrive →
      (w.server.queue p.1).edge = false ∧ w.server.busy p.1 = 0) :
    (∀ p ∈ l, ∀ t, w.server.lts.step p.1 p.2 t → w.server.effect p.1 p.2 = .finish →
        (w.server.queue t).pending = 0) ∧
      ∀ t ∈ Lts.visited l s, w.server.busy t = 0 → 0 < (w.server.queue t).pending →
        (w.server.queue t).edge = true := by
  obtain ⟨hfinish, hwaiting⟩ := EdgeQueue.Server.drained hinit hl halone
  refine ⟨hfinish, fun t ht hbusy hpos => ?_⟩
  by_contra hedge
  have hdue := EdgeQueue.due_eq_zero.mpr (Bool.eq_false_iff.mpr hedge)
  have hpending := hwaiting t ht hbusy
  omega

/-- **A client that connects before the edge of an earlier one is reported is left** in the queue:
it is not empty again, however many events are handled. -/
theorem pending_pos_of_merged (w : EdgeServer) {s₀ s t u : w.State} {a : w.Act}
    {l l' : List (w.State × w.Act)} (hinit : w.server.lts.init s₀)
    (hl : w.server.lts.Run s₀ l s) (hs : w.server.lts.step s a t)
    (he : w.server.effect s a = .arrive) (hedge : (w.server.queue s).edge = true)
    (hl' : w.server.lts.Run t l' u) : 0 < (w.server.queue u).pending :=
  EdgeQueue.Server.left hinit hl hs he hedge hl'

theorem init_et (listenfd : ℕ) : (ListenLoop.et listenfd).program.lts.init
    { server := .empty, queue := .empty, phase := .waiting } := ⟨rfl, rfl, rfl⟩

/-- A client connects to `et`, is accepted, and another one connects. -/
theorem run_drained_two : ∃ (l : List (State (.et 3) × Act (.et 3))) (s₀ s : State (.et 3)),
    (server (.et 3)).lts.init s₀ ∧ (server (.et 3)).lts.Run s₀ l s ∧
    ((server (.et 3)).queue s).pending = 1 ∧
    (∀ p ∈ l, ∀ t, (server (.et 3)).lts.step p.1 p.2 t → (server (.et 3)).effect p.1 p.2 = .finish →
        ((server (.et 3)).queue t).pending = 0) ∧
      ∀ t ∈ Lts.visited l s, (server (.et 3)).busy t = 0 → 0 < ((server (.et 3)).queue t).pending →
        ((server (.et 3)).queue t).edge = true := by
  have hrun := Lts.Run.of_trace (M := (ListenLoop.et 3).program.lts)
    (f := (ListenLoop.et 3).program.tryStep) Program.tryStep_step
    (s := { server := .empty, queue := .empty, phase := .waiting })
    (l := [.arrive, .wait [⟨3, true, 5, []⟩], .accept, .handle, .wrap 0, .arrive]) rfl
  refine ⟨_, _, _, init_et 3, hrun, rfl, run_drained (.et 3) (init_et 3) hrun ?_⟩
  intro p hp
  fin_cases hp <;> decide

/-- Two clients connect to `et` before the event is reported: one is accepted, and the other one is
left. -/
theorem not_run_drained : ¬ ∀ (w : EdgeServer) (s₀ s : w.State) (l : List (w.State × w.Act)),
    w.server.lts.init s₀ → w.server.lts.Run s₀ l s →
      (∀ p ∈ l, ∀ t, w.server.lts.step p.1 p.2 t → w.server.effect p.1 p.2 = .finish →
          (w.server.queue t).pending = 0) ∧
        ∀ t ∈ Lts.visited l s, w.server.busy t = 0 → 0 < (w.server.queue t).pending →
          (w.server.queue t).edge = true := by
  intro h
  have hrun := Lts.Run.of_trace (M := (ListenLoop.et 3).program.lts)
    (f := (ListenLoop.et 3).program.tryStep) Program.tryStep_step
    (s := { server := .empty, queue := .empty, phase := .waiting })
    (l := [.arrive, .arrive, .wait [⟨3, true, 5, []⟩], .accept, .handle, .wrap 0]) rfl
  have hwaiting := (h (.et 3) _ _ _ (init_et 3) hrun).2 _
    (Lts.last_mem_visited _ _) rfl Nat.one_pos
  cases hwaiting

end EdgeServer

end Candcpp
