import Candcpp.Lts
import Candcpp.Timer.SortedList

/-!
# A server that closes idle connections

The main loop of `close_nonactivity_connection.cpp`. Every accepted connection gets
a timer on one `sorted_timer_list`, set to expire `3 * TIMESLOT` after its last
activity; the callback of the timer closes the connection. A batch of epoll
events is handled one event after the other, and if a `SIGALRM` was among them
the due timers are fired after the batch.

The data of a run are what the system calls return, and they are kept with the
event whose handler makes the calls (`Candcpp.CloseNonactivity.Event`). What is
assumed of them is `Candcpp.CloseNonactivity.EventOk`: the clock does not go back,
`accept` returns a descriptor below `FD_LIMIT` that is not open, `new` returns an
address that is not in use, and a connection is reported while it is registered –
which follows from what epoll promises of a whole batch
(`Candcpp.CloseNonactivity.Inv.inTurn`). Nothing is assumed about the order of the
events in a batch, and a descriptor may be closed and accepted again within one.

The state couples three structures – the open descriptors, the table `users`
with its stale timer pointers, and the list – and
`Candcpp.CloseNonactivity.Inv` is what ties them. `Candcpp.CloseNonactivity.idle_closed`
is the result: between batches the list holds one timer for each open connection,
each handler call closes exactly the idle ones, and no descriptor is closed twice.
-/

namespace Candcpp

open Cpp SortedTimerList

namespace CloseNonactivity

/-! ### The program -/

/-- `#define FD_LIMIT 65535`. -/
def fdLimit : ℕ := 65535

/-- `#define TIMESLOT 5`. -/
def timeslot : ℤ := 5

/-- The signal `SIGALRM`. -/
def sigalrm : ℕ := 14

/-- The signal `SIGTERM`. -/
def sigterm : ℕ := 15

/-- `struct client_data`, without the address and the read buffer. -/
structure ClientData where
  sockfd : ℕ
  timer : Ptr

/-- What the timer callback acts on: the array `users`, the open descriptors of the
accepted connections, those registered with epoll, and the number of calls of
`close` that failed because the descriptor was not open. -/
structure Server where
  users : ℕ → ClientData
  opened : Finset ℕ
  watched : Finset ℕ
  ebadf : ℕ

/-- `close(fd)`. -/
def closeFd (s : Server) (fd : ℕ) : Server :=
  if fd ∈ s.opened then { s with opened := s.opened.erase fd }
  else { s with ebadf := s.ebadf + 1 }

/-- `cb_func(&users[user])`: the connection is removed from epoll and closed. -/
def cbFunc (user : ℕ) (s : Server) : Server :=
  let fd := (s.users user).sockfd
  closeFd { s with watched := s.watched.erase fd } fd

/-- The variables of `main`, and the static `timer_list`. -/
structure Main where
  timerList : SortedTimerList Server
  server : Server
  timeout : Bool
  stopServer : Bool

/-- The result of a `recv`: an error, which is `EAGAIN` or not, or the bytes
received – none at the end of the stream. -/
inductive Recv where
  /-- `recv` returns `-1`. -/
  | error (again : Bool) : Recv
  /-- `recv` returns the number of these bytes. -/
  | bytes (data : List ℕ) : Recv

/-- An event that epoll reports, with what the system calls of its handler return. -/
structure Event where
  /-- `events[i].data.fd`. -/
  fd : ℕ
  /-- `events[i].events & EPOLLIN`. -/
  epollin : Bool
  /-- What `accept` returns. -/
  connfd : ℕ
  /-- The address `new util_timer` returns. -/
  timer : Addr
  /-- What `time(NULL)` returns. -/
  cur : ℤ
  /-- What `recv` returns. -/
  recv : Recv

/-- The two descriptors `main` waits on besides the connections. -/
structure Config where
  listenfd : ℕ
  pipefd : ℕ

variable (cfg : Config)

/-- The branch `sockfd == listenfd`: the connection is accepted and registered, and
its timer is created and added. -/
def onAccept (ev : Event) (s : Main) : Exec Main :=
  if ev.connfd < fdLimit then do
    let server := { s.server with
      opened := insert ev.connfd s.server.opened
      watched := insert ev.connfd s.server.watched
      users := Function.update s.server.users ev.connfd
        { sockfd := ev.connfd, timer := some ev.timer } }
    let m := s.timerList.mem.set ev.timer (.create ev.connfd (ev.cur + 3 * timeslot) cbFunc)
    let l ← addTimer { s.timerList with mem := m } (some ev.timer)
    pure { s with timerList := l, server := server }
  else throw .outOfRange

/-- One byte of the signal pipe. -/
def onSignal (s : Main) (sig : ℕ) : Main :=
  if sig = sigalrm then { s with timeout := true }
  else if sig = sigterm then { s with stopServer := true }
  else s

/-- What is done with a connection that has failed or ended: it is closed, and its
timer deleted. -/
def closeClient (fd : ℕ) (timer : Ptr) (s : Main) : Exec Main := do
  let server := cbFunc fd s.server
  let l ← (if timer ≠ none then delTimer s.timerList timer else pure s.timerList)
  pure { s with timerList := l, server := server }

/-- The branch of a readable connection. -/
def onClient (ev : Event) (s : Main) : Exec Main :=
  if ev.fd < fdLimit then
    let timer := (s.server.users ev.fd).timer
    match ev.recv with
    | .error again => if ¬again then closeClient ev.fd timer s else pure s
    | .bytes [] => closeClient ev.fd timer s
    | .bytes (_ :: _) =>
      if timer ≠ none then do
        let m ← s.timerList.mem.modify timer fun t => { t with expire := ev.cur + 3 * timeslot }
        let l ← adjustTimer { s.timerList with mem := m } timer
        pure { s with timerList := l }
      else pure s
  else throw .outOfRange

/-- The body of the `for` loop over the reported events. -/
def handleEvent (ev : Event) (s : Main) : Exec Main :=
  if ev.fd = cfg.listenfd then onAccept ev s
  else if ev.fd = cfg.pipefd ∧ ev.epollin then
    match ev.recv with
    | .error _ => pure s
    | .bytes sigs => pure (sigs.foldl onSignal s)
  else if ev.epollin then onClient ev s
  else pure s

/-- `timer_handler()`, when the clock reads `cur`. -/
def timerHandler (cur : ℤ) (s : Main) : Exec Main := do
  let (l, server, _) ← tick cur s.timerList s.server
  pure { s with timerList := l, server := server }

/-! ### Runs

The world adds to the variables of `main` two things that only the statements
speak about: the latest reading of the clock, and for each descriptor the time of
the last `accept` that returned it or the last arrival of data on it. -/

/-- The server, and the history of its connections. -/
structure World where
  main : Main
  now : ℤ
  last : ℕ → ℤ

/-- The times of last activity after an event. -/
def observe (ev : Event) (last : ℕ → ℤ) : ℕ → ℤ :=
  if ev.fd = cfg.listenfd then Function.update last ev.connfd ev.cur
  else if ev.fd = cfg.pipefd then last
  else match ev.epollin, ev.recv with
    | true, .bytes (_ :: _) => Function.update last ev.fd ev.cur
    | _, _ => last

/-- One event is handled. -/
def handle (w : World) (ev : Event) : Exec World := do
  let m ← handleEvent cfg ev w.main
  pure { main := m, now := ev.cur, last := observe cfg ev w.last }

/-- The events of a batch are handled, one after the other. -/
def handleAll : World → List Event → Exec World
  | w, [] => pure w
  | w, ev :: evs => do
    let w ← handle cfg w ev
    handleAll w evs

/-- The end of a batch: the timers are looked after if the alarm went off. -/
def finish (w : World) (cur : ℤ) : Exec World :=
  if w.main.timeout then do
    let m ← timerHandler cur w.main
    pure { w with main := { m with timeout := false }, now := cur }
  else pure w

/-- One iteration of the main loop: the events of a batch, and the clock after them. -/
structure Batch where
  events : List Event
  cur : ℤ

/-- What the system calls of a handler are assumed to return. -/
structure CallsOk (w : World) (ev : Event) : Prop where
  /-- The clock does not go back. -/
  clock : w.now ≤ ev.cur
  /-- `accept` returns a small descriptor that is not open, and `new` an address
  that is not in use. -/
  accept : ev.fd = cfg.listenfd → ev.connfd < fdLimit ∧ ev.connfd ∉ w.main.server.opened ∧
    w.main.timerList.mem ev.timer = none

/-- **What is assumed of an event** when its handler runs. -/
structure EventOk (w : World) (ev : Event) : Prop extends CallsOk cfg w ev where
  /-- A connection is reported while it is registered. -/
  client : ev.fd ≠ cfg.listenfd → ev.fd ≠ cfg.pipefd → ev.fd ∈ w.main.server.watched

/-- A condition on the events of a batch, each when its turn comes. -/
def InTurn (ok : World → Event → Prop) : World → List Event → Prop
  | _, [] => True
  | w, ev :: evs => ok w ev ∧ ∀ w', handle cfg w ev = pure w' → InTurn ok w' evs

/-- **What epoll promises** of a batch: no descriptor is reported twice, and those
of connections are registered when the batch is made. -/
structure Reported (w : World) (evs : List Event) : Prop where
  nodup : (evs.map Event.fd).Nodup
  client : ∀ ev ∈ evs, ev.fd ≠ cfg.listenfd → ev.fd ≠ cfg.pipefd → ev.fd ∈ w.main.server.watched

/-- The main loop, one batch at a time, as long as it has not been told to stop. -/
def program : Program World Batch where
  init := fun w => w.main.timerList = .empty ∧ w.main.server.opened = ∅ ∧
    w.main.server.watched = ∅ ∧ w.main.server.ebadf = 0 ∧ w.main.timeout = false ∧
    w.main.stopServer = false
  allowed := fun w b => w.main.stopServer = false ∧ InTurn cfg (EventOk cfg) w b.events ∧
    ∀ w', handleAll cfg w b.events = pure w' → w'.now ≤ b.cur
  exec := fun w b => do
    let w ← handleAll cfg w b.events
    finish w b.cur

/-! ### The descriptors, the table and the timers -/

/-- The timers of a memory, without their two pointers. -/
def payloads (m : Mem (UtilTimer Server)) : Pending Addr (ℕ × ℤ × (ℕ → Server → Server)) :=
  fun a => (m a).map UtilTimer.payload

/-- **The coupling**: every open descriptor has its entry in the table, with its
timer, which expires `3 * TIMESLOT` after the last activity; and there are no
other timers. The entries of the other descriptors may be anything. -/
structure Coupled (P : Pending Addr (ℕ × ℤ × (ℕ → Server → Server))) (s : Server)
    (last : ℕ → ℤ) : Prop where
  client : ∀ fd ∈ s.opened, (s.users fd).sockfd = fd ∧
    ∃ p, (s.users fd).timer = some p ∧ P p = some (fd, last fd + 3 * timeslot, cbFunc)
  timer : ∀ p y, P p = some y → y.1 ∈ s.opened ∧ (s.users y.1).timer = some p
  watched : s.watched = s.opened
  ebadf : s.ebadf = 0

variable {P : Pending Addr (ℕ × ℤ × (ℕ → Server → Server))} {s : Server} {last : ℕ → ℤ}
  {m m' : Mem (UtilTimer Server)} {fd fd' : ℕ} {p : Addr} {e cur : ℤ}

theorem SamePayload.payloads_eq (h : SamePayload m m') : payloads m' = payloads m := funext h

theorem expire_of_payload {t : UtilTimer Server} {cb : ℕ → Server → Server}
    (h : t.payload = (fd, e, cb)) : t.expire = e := congrArg (fun y => y.2.1) h

theorem payloads_set (m : Mem (UtilTimer Server)) (a : Addr) (t : UtilTimer Server) :
    payloads (m.set a t) = (payloads m).add a t.payload := by
  funext b
  by_cases hb : b = a
  · rw [hb, Pending.add_self, payloads, Mem.set_self, Option.map_some]
  · rw [Pending.add_of_ne _ _ hb, payloads, payloads, Mem.set_of_ne _ _ hb]

theorem payloads_clear (m : Mem (UtilTimer Server)) (a : Addr) :
    payloads (m.clear a) = (payloads m).remove a := by
  funext b
  by_cases hb : b = a
  · rw [hb, Pending.remove_self, payloads, Mem.clear_self]
    rfl
  · rw [Pending.remove_of_ne _ hb, payloads, payloads, Mem.clear_of_ne _ hb]

/-- A timer belongs to one descriptor only. -/
theorem Coupled.timer_inj (h : Coupled P s last) (hfd : fd ∈ s.opened) (hfd' : fd' ∈ s.opened)
    (heq : (s.users fd).timer = (s.users fd').timer) : fd = fd' := by
  obtain ⟨-, p, hp, hP⟩ := h.client fd hfd
  obtain ⟨-, p', hp', hP'⟩ := h.client fd' hfd'
  rw [hp, hp'] at heq
  rw [Option.some.inj heq, hP'] at hP
  exact (congrArg Prod.fst (Option.some.inj hP)).symm

/-- A timer holds its deadline and the callback. -/
theorem Coupled.payload (h : Coupled P s last) {y : ℕ × ℤ × (ℕ → Server → Server)}
    (hy : P p = some y) : y = (y.1, last y.1 + 3 * timeslot, cbFunc) := by
  obtain ⟨hopen, htimer⟩ := h.timer p y hy
  obtain ⟨-, p', hp', hP'⟩ := h.client y.1 hopen
  rw [htimer] at hp'
  rw [← Option.some.inj hp', hy] at hP'
  exact Option.some.inj hP'

/-- **A connection is accepted**, under a descriptor that is not open. -/
theorem Coupled.accept (h : Coupled P s last) (hfd : fd ∉ s.opened) (hp : P p = none) (cur : ℤ) :
    Coupled (P.add p (fd, cur + 3 * timeslot, cbFunc))
      { s with
        opened := insert fd s.opened
        watched := insert fd s.watched
        users := Function.update s.users fd { sockfd := fd, timer := some p } }
      (Function.update last fd cur) where
  client := by
    intro fd' hfd'
    by_cases hne : fd' = fd
    · subst hne
      simp only [Function.update_self, true_and]
      exact ⟨p, rfl, Pending.add_self _ _ _⟩
    · simp only [Function.update_of_ne hne]
      -- a client that was there keeps its timer, which is at another address
      obtain ⟨hsock, p', hp', hP'⟩ := h.client fd' (Finset.mem_of_mem_insert_of_ne hfd' hne)
      refine ⟨hsock, p', hp', ?_⟩
      rw [Pending.add_of_ne _ _ (by rintro rfl; rw [hp] at hP'; cases hP'), hP']
  timer := by
    intro p' y hy
    by_cases hpp : p' = p
    · subst hpp
      rw [Pending.add_self] at hy
      obtain rfl := Option.some.inj hy
      exact ⟨Finset.mem_insert_self fd _, by simp only [Function.update_self]⟩
    · rw [Pending.add_of_ne _ _ hpp] at hy
      obtain ⟨hopen, htimer⟩ := h.timer p' y hy
      refine ⟨Finset.mem_insert_of_mem hopen, ?_⟩
      simp only [Function.update_of_ne (ne_of_mem_of_not_mem hopen hfd)]
      exact htimer
  watched := congrArg (insert fd) h.watched
  ebadf := h.ebadf

/-- **A connection is closed**, and its timer deleted. -/
theorem Coupled.close (h : Coupled P s last) (hfd : fd ∈ s.opened)
    (hp : (s.users fd).timer = some p) :
    Coupled (P.remove p) (cbFunc fd s) last ∧ (cbFunc fd s).users = s.users ∧
      (cbFunc fd s).opened = s.opened.erase fd := by
  have hcb : cbFunc fd s =
      { s with opened := s.opened.erase fd, watched := s.watched.erase fd } := by
    rw [cbFunc, (h.client fd hfd).1, closeFd, if_pos hfd]
  rw [hcb]
  refine ⟨⟨fun fd' hfd' => ?_, fun p' y hy => ?_, congrArg (Finset.erase · fd) h.watched,
    h.ebadf⟩, rfl, rfl⟩
  · obtain ⟨hne, hopen⟩ := Finset.mem_erase.mp hfd'
    obtain ⟨hsock, p', hp', hP'⟩ := h.client fd' hopen
    have hpp : p' ≠ p := by
      rintro rfl
      exact hne (h.timer_inj hopen hfd (hp'.trans hp.symm))
    exact ⟨hsock, p', hp', Pending.remove_eq_some.mpr ⟨hpp, hP'⟩⟩
  · obtain ⟨hpp, hP'⟩ := Pending.remove_eq_some.mp hy
    obtain ⟨hopen, htimer⟩ := h.timer p' y hP'
    refine ⟨Finset.mem_erase.mpr ⟨?_, hopen⟩, htimer⟩
    rintro heq
    rw [heq, hp] at htimer
    exact hpp (Option.some.inj htimer).symm

/-- **Data arrive** on a connection, and its timer is adjusted. -/
theorem Coupled.data (h : Coupled P s last) (hfd : fd ∈ s.opened)
    (hp : (s.users fd).timer = some p) (cur : ℤ) :
    Coupled (P.add p (fd, cur + 3 * timeslot, cbFunc)) s (Function.update last fd cur) where
  client := by
    intro fd' hfd'
    obtain ⟨hsock, p', hp', hP'⟩ := h.client fd' hfd'
    refine ⟨hsock, p', hp', ?_⟩
    by_cases hne : fd' = fd
    · subst hne
      obtain rfl : p = p' := Option.some.inj (hp.symm.trans hp')
      rw [Pending.add_self, Function.update_self]
    · have hpp : p' ≠ p := by
        rintro rfl
        exact hne (h.timer_inj hfd' hfd (hp'.trans hp.symm))
      rw [Pending.add_of_ne _ _ hpp, Function.update_of_ne hne, hP']
  timer := by
    intro p' y hy
    by_cases hpp : p' = p
    · subst hpp
      rw [Pending.add_self] at hy
      obtain rfl := Option.some.inj hy
      exact ⟨hfd, hp⟩
    · rw [Pending.add_of_ne _ _ hpp] at hy
      exact h.timer p' y hy
  watched := h.watched
  ebadf := h.ebadf

/-- **The timers of a list are fired**: each closes its connection. -/
theorem Coupled.fire (h : Coupled P s last) {fired : List Addr} (hnd : fired.Nodup)
    (hP : ∀ a ∈ fired, P a = payloads m a ∧ P a ≠ none) :
    Coupled (fun a => if a ∈ fired then none else P a) (fired.foldl (call m) s) last := by
  induction fired generalizing P s with
  | nil => simpa using h
  | cons a fired ih =>
    obtain ⟨ha, hnd⟩ := List.nodup_cons.mp hnd
    obtain ⟨hPa, hne⟩ := hP a List.mem_cons_self
    obtain ⟨y, hy⟩ := Option.ne_none_iff_exists'.mp hne
    obtain ⟨t, ht, rfl⟩ := Option.map_eq_some_iff.mp (hPa.symm.trans hy)
    obtain ⟨hopen, htimer⟩ := h.timer a _ hy
    have hcall : call m s a = cbFunc t.userData s := by
      rw [call_some ht, show t.cbFunc = cbFunc from congrArg (fun y => y.2.2) (h.payload hy)]
    have hstep := ih (h.close hopen htimer).1 hnd fun b hb => by
      rw [Pending.remove_of_ne _ (ne_of_mem_of_not_mem hb ha)]
      exact hP b (List.mem_cons_of_mem a hb)
    rw [List.foldl_cons, hcall]
    refine cast (congrArg (Coupled · _ last) ?_) hstep
    funext b
    by_cases hb : b = a
    · simp [hb]
    · simp [hb, Pending.remove_of_ne _ hb]

/-! ### The handlers -/

/-- **The invariant of the runs**: the list holds all the timers, and the three
structures are coupled. -/
structure Inv (w : World) (l : List Addr) : Prop where
  owned : Owned w.main.timerList l
  coupled : Coupled (payloads w.main.timerList.mem) w.main.server w.last
  bound : ∀ fd ∈ w.main.server.opened, fd < fdLimit
  past : ∀ fd ∈ w.main.server.opened, w.last fd ≤ w.now

variable {cfg} {w w' : World} {l : List Addr} {ev : Event}

/-- Time passes, and signals are noted. -/
theorem Inv.wait (h : Inv w l) (hnow : w.now ≤ cur) (timeout stopServer : Bool) :
    Inv { w with main := { w.main with timeout := timeout, stopServer := stopServer }, now := cur }
      l where
  owned := h.owned
  coupled := h.coupled
  bound := h.bound
  past := fun fd hfd => (h.past fd hfd).trans hnow

theorem foldl_onSignal (sigs : List ℕ) (s : Main) :
    ∃ timeout stopServer,
      sigs.foldl onSignal s = { s with timeout := timeout, stopServer := stopServer } := by
  induction sigs generalizing s with
  | nil => exact ⟨s.timeout, s.stopServer, rfl⟩
  | cons sig sigs ih =>
    rw [List.foldl_cons]
    have hone : ∃ timeout stopServer,
        onSignal s sig = { s with timeout := timeout, stopServer := stopServer } := by
      rw [onSignal]
      split
      · exact ⟨_, _, rfl⟩
      · split
        · exact ⟨_, _, rfl⟩
        · exact ⟨_, _, rfl⟩
    obtain ⟨b, c, hbc⟩ := hone
    obtain ⟨b', c', hbc'⟩ := ih (onSignal s sig)
    exact ⟨b', c', by rw [hbc', hbc]⟩

/-- The timer of an open descriptor is alive. -/
theorem Inv.client (h : Inv w l) (hfd : fd ∈ w.main.server.opened) :
    ∃ p t, (w.main.server.users fd).timer = some p ∧ w.main.timerList.mem p = some t ∧
      t.payload = (fd, w.last fd + 3 * timeslot, cbFunc) ∧ p ∈ l := by
  obtain ⟨-, p, hp, hP⟩ := h.coupled.client fd hfd
  obtain ⟨t, ht, hpay⟩ := Option.map_eq_some_iff.mp hP
  exact ⟨p, t, hp, ht, hpay, h.owned.own p t ht⟩

/-- **A connection is accepted.** -/
theorem Inv.onAccept (h : Inv w l) (hnow : w.now ≤ ev.cur) (hlim : ev.connfd < fdLimit)
    (hfd : ev.connfd ∉ w.main.server.opened) (hnew : w.main.timerList.mem ev.timer = none) :
    ∃ s l', CloseNonactivity.onAccept ev w.main = pure s ∧
      Inv { main := s, now := ev.cur, last := Function.update w.last ev.connfd ev.cur } l' ∧
      s.server.opened = insert ev.connfd w.main.server.opened := by
  obtain ⟨tl, l', hcode, hown, -, hsame⟩ := h.owned.addTimer hnew ev.connfd
    (ev.cur + 3 * timeslot) cbFunc
  rw [CloseNonactivity.onAccept, if_pos hlim]
  dsimp only
  rw [hcode, pure_bind]
  refine ⟨_, l', rfl, ⟨hown, ?_, ?_, ?_⟩, rfl⟩
  · dsimp only
    rw [SamePayload.payloads_eq hsame, payloads_set]
    exact h.coupled.accept hfd (by rw [payloads, hnew, Option.map_none]) ev.cur
  · intro fd hmem
    rcases Finset.mem_insert.mp hmem with rfl | hmem
    · exact hlim
    · exact h.bound fd hmem
  · intro fd hmem
    dsimp only
    by_cases hne : fd = ev.connfd
    · rw [hne, Function.update_self]
    · rw [Function.update_of_ne hne]
      exact (h.past fd (Finset.mem_of_mem_insert_of_ne hmem hne)).trans hnow

/-- **A connection is closed.** -/
theorem Inv.closeClient (h : Inv w l) (hnow : w.now ≤ cur) (hfd : fd ∈ w.main.server.opened) :
    ∃ s l', CloseNonactivity.closeClient fd (w.main.server.users fd).timer w.main = pure s ∧
      Inv { w with main := s, now := cur } l' ∧
      s.server.opened = w.main.server.opened.erase fd := by
  obtain ⟨p, t, hp, ht, hpay, hpl⟩ := h.client hfd
  obtain ⟨tl, l', hcode, hown, -, hsame⟩ := h.owned.delTimer hpl
  obtain ⟨hcoupled, -, hopened⟩ := h.coupled.close hfd hp
  rw [CloseNonactivity.closeClient, hp, if_pos (by simp), hcode, pure_bind]
  refine ⟨_, l', rfl, ⟨hown, ?_, fun fd' hmem => ?_, fun fd' hmem => ?_⟩, hopened⟩
  · dsimp only
    rw [SamePayload.payloads_eq hsame, payloads_clear]
    exact hcoupled
  · exact h.bound fd' (Finset.mem_of_mem_erase (hopened ▸ hmem))
  · exact (h.past fd' (Finset.mem_of_mem_erase (hopened ▸ hmem))).trans hnow

/-- **Data arrive.** Later activity never lowers an `expire`, so the timer may be
adjusted. -/
theorem Inv.data (h : Inv w l) (hnow : w.now ≤ cur) (hfd : fd ∈ w.main.server.opened)
    (hp : (w.main.server.users fd).timer = some p) {t : UtilTimer Server}
    (ht : w.main.timerList.mem p = some t)
    (hpay : t.payload = (fd, w.last fd + 3 * timeslot, cbFunc)) :
    ∃ tl l', adjustTimer { w.main.timerList with
        mem := w.main.timerList.mem.set p { t with expire := cur + 3 * timeslot } } (some p) =
          pure tl ∧
      Inv { main := { w.main with timerList := tl }, now := cur,
            last := Function.update w.last fd cur } l' := by
  have hexp : t.expire = w.last fd + 3 * timeslot := expire_of_payload hpay
  have hle : t.expire ≤ cur + 3 * timeslot := by
    have := h.past fd hfd
    omega
  obtain ⟨tl, l', hcode, hown, -, hsame⟩ := h.owned.adjustTimer (h.owned.own p t ht) ht hle
  refine ⟨tl, l', hcode, hown, ?_, h.bound, fun fd' hmem => ?_⟩
  · have hnew : ({ t with expire := cur + 3 * timeslot } : UtilTimer Server).payload =
        (fd, cur + 3 * timeslot, cbFunc) := by
      rw [UtilTimer.payload, show t.userData = fd from congrArg Prod.fst hpay,
        show t.cbFunc = cbFunc from congrArg (fun y => y.2.2) hpay]
    dsimp only
    rw [SamePayload.payloads_eq hsame, payloads_set, hnew]
    exact h.coupled.data hfd hp cur
  · dsimp only
    by_cases hne : fd' = fd
    · rw [hne, Function.update_self]
    · rw [Function.update_of_ne hne]
      exact (h.past fd' hmem).trans hnow

/-- **An event is handled**, whatever it is. It closes no other connection. -/
theorem Inv.handle (h : Inv w l) (hev : EventOk cfg w ev) :
    ∃ w' l', CloseNonactivity.handle cfg w ev = pure w' ∧ Inv w' l' ∧
      w.main.server.opened.erase ev.fd ⊆ w'.main.server.opened := by
  have hwait : ∀ b c, Inv { w with
      main := { w.main with timeout := b, stopServer := c }, now := ev.cur } l :=
    h.wait hev.clock
  have hidle : Inv { w with now := ev.cur } l := hwait w.main.timeout w.main.stopServer
  have hsub := Finset.erase_subset ev.fd w.main.server.opened
  rw [CloseNonactivity.handle, handleEvent, observe]
  by_cases hlisten : ev.fd = cfg.listenfd
  · obtain ⟨hlim, hfd, hnew⟩ := hev.accept hlisten
    obtain ⟨s, l', hcode, hinv, hopened⟩ := h.onAccept hev.clock hlim hfd hnew
    rw [if_pos hlisten, if_pos hlisten, hcode, pure_bind]
    exact ⟨_, l', rfl, hinv, hsub.trans (hopened ▸ Finset.subset_insert _ _)⟩
  rw [if_neg hlisten, if_neg hlisten]
  by_cases hpipe : ev.fd = cfg.pipefd
  · rw [if_pos hpipe]
    cases hin : ev.epollin with
    | false =>
      rw [if_neg (by simp), if_neg (by simp), pure_bind]
      exact ⟨_, l, rfl, hidle, hsub⟩
    | true =>
      rw [if_pos ⟨hpipe, rfl⟩]
      cases ev.recv with
      | error again => exact ⟨_, l, rfl, hidle, hsub⟩
      | bytes sigs =>
        obtain ⟨b, c, hbc⟩ := foldl_onSignal sigs w.main
        dsimp only
        rw [pure_bind, hbc]
        exact ⟨_, l, rfl, hwait b c, hsub⟩
  rw [if_neg hpipe, if_neg fun hc => hpipe hc.1]
  cases hin : ev.epollin with
  | false => exact ⟨_, l, rfl, hidle, hsub⟩
  | true =>
    -- a connection is reported, so it is open and has a timer
    have hfd : ev.fd ∈ w.main.server.opened := h.coupled.watched ▸ hev.client hlisten hpipe
    obtain ⟨p, t, hp, ht, hpay, -⟩ := h.client hfd
    obtain ⟨s, l', hcode, hinv, hopened⟩ := h.closeClient hev.clock hfd
    rw [if_pos rfl, onClient, if_pos (h.bound ev.fd hfd)]
    cases ev.recv with
    | error again =>
      cases again with
      | true => exact ⟨_, l, rfl, hidle, hsub⟩
      | false =>
        dsimp only
        rw [if_pos (by simp), hcode, pure_bind]
        exact ⟨_, l', rfl, hinv, hopened.ge⟩
    | bytes data =>
      cases data with
      | nil =>
        dsimp only
        rw [hcode, pure_bind]
        exact ⟨_, l', rfl, hinv, hopened.ge⟩
      | cons b data =>
        obtain ⟨tl, l', hcode, hinv⟩ := h.data hev.clock hfd hp ht hpay
        dsimp only
        rw [hp, if_pos (by simp), Mem.modify_some ht, pure_bind, hcode, pure_bind, pure_bind]
        exact ⟨_, l', rfl, hinv, hsub⟩

/-- **A batch is handled.** -/
theorem Inv.handleAll (h : Inv w l) {evs : List Event} (hevs : InTurn cfg (EventOk cfg) w evs) :
    ∃ w' l', CloseNonactivity.handleAll cfg w evs = pure w' ∧ Inv w' l' := by
  induction evs generalizing w l with
  | nil => exact ⟨w, l, rfl, h⟩
  | cons ev evs ih =>
    obtain ⟨w₁, l₁, hcode, hinv, -⟩ := h.handle hevs.1
    rw [CloseNonactivity.handleAll, hcode, pure_bind]
    exact ih hinv (hevs.2 w₁ hcode)

/-- **A batch of epoll can be handled**: when a connection has its turn it is still
registered, since only its own event closes it. -/
theorem Inv.inTurn (h : Inv w l) {evs : List Event} (hrep : Reported cfg w evs)
    (hcalls : InTurn cfg (CallsOk cfg) w evs) : InTurn cfg (EventOk cfg) w evs := by
  induction evs generalizing w l with
  | nil => trivial
  | cons ev evs ih =>
    have hev : EventOk cfg w ev := ⟨hcalls.1, hrep.client ev List.mem_cons_self⟩
    refine ⟨hev, fun w' hw' => ?_⟩
    obtain ⟨w₁, l₁, hcode, hinv, hsub⟩ := h.handle hev
    obtain rfl : w₁ = w' := Exec.pure_inj.mp (hcode.symm.trans hw')
    obtain ⟨hne, hnd⟩ := List.nodup_cons.mp hrep.nodup
    refine ih hinv ⟨hnd, fun ev' hmem hlisten hpipe => ?_⟩ (hcalls.2 w₁ hw')
    have hfd : ev'.fd ∈ w.main.server.opened :=
      h.coupled.watched ▸ hrep.client ev' (List.mem_cons_of_mem ev hmem) hlisten hpipe
    rw [hinv.coupled.watched]
    refine hsub (Finset.mem_erase.mpr ⟨fun heq => hne ?_, hfd⟩)
    rw [← heq]
    exact List.mem_map_of_mem hmem

/-- What a tick leaves of the timers. -/
theorem Ticked.payloads {tl tl' : SortedTimerList Server} {s s' : Server} {fired l' : List Addr}
    (h : Ticked cur tl s l tl' s' fired l') (hnd : l.Nodup) (a : Addr) :
    CloseNonactivity.payloads tl'.mem a =
      if a ∈ fired then none else CloseNonactivity.payloads tl.mem a := by
  have hdis := (List.nodup_append.mp (h.split ▸ hnd)).2.2
  by_cases ha : a ∈ l'
  · rw [if_neg fun hf => hdis a hf a ha rfl]
    exact h.payload a ha
  · have hnone : tl'.mem a = none := by
      by_contra hne
      obtain ⟨t, ht⟩ := Option.ne_none_iff_exists'.mp hne
      exact ha (h.owned.own a t ht)
    split
    · rw [CloseNonactivity.payloads, hnone, Option.map_none]
    · rename_i hf
      have hrest := h.expires.rest a
      rw [if_neg hf, pending, hnone, Option.map_none, pending, eq_comm,
        Option.map_eq_none_iff] at hrest
      rw [CloseNonactivity.payloads, CloseNonactivity.payloads, hnone, hrest]

/-- **The timer handler** closes exactly the connections that have been idle for
`3 * TIMESLOT`. -/
theorem Inv.timerHandler (h : Inv w l) (hnow : w.now ≤ cur) :
    ∃ s l', CloseNonactivity.timerHandler cur w.main = pure s ∧
      Inv { w with main := { s with timeout := false }, now := cur } l' ∧
      ∀ fd, fd ∈ s.server.opened ↔
        fd ∈ w.main.server.opened ∧ cur - 3 * timeslot < w.last fd := by
  obtain ⟨tl, server, fired, l', hcode, hT⟩ := tick_spec cur h.owned w.main.server
  have hmem : ∀ a ∈ fired, payloads w.main.timerList.mem a ≠ none := by
    intro a ha
    obtain ⟨t, ht⟩ := h.owned.seg.alive (hT.split ▸ List.mem_append_left l' ha)
    rw [payloads, ht]
    simp
  -- each timer that is fired closes the descriptor of its own
  have hcoupled : Coupled (payloads tl.mem) server w.last := by
    rw [show payloads tl.mem = _ from funext (Ticked.payloads hT h.owned.nodup), hT.env_eq]
    exact h.coupled.fire hT.expires.nodup fun a ha => ⟨rfl, hmem a ha⟩
  have hopened : ∀ fd, fd ∈ server.opened ↔
      fd ∈ w.main.server.opened ∧ cur - 3 * timeslot < w.last fd := by
    intro fd
    constructor
    · intro hfd
      obtain ⟨-, p, -, hP⟩ := hcoupled.client fd hfd
      have hpend : pending tl.mem p = some (w.last fd + 3 * timeslot) := by
        obtain ⟨t, ht, hpay⟩ := Option.map_eq_some_iff.mp hP
        rw [pending, ht, Option.map_some, expire_of_payload hpay]
      refine ⟨?_, ?_⟩
      · rw [Ticked.payloads hT h.owned.nodup] at hP
        split at hP
        · cases hP
        · exact (h.coupled.timer p _ hP).1
      · have := hT.expires.lt_of_rest hpend
        omega
    · rintro ⟨hfd, hlt⟩
      obtain ⟨p, t, hp, ht, hpay, -⟩ := h.client hfd
      -- a descriptor that was active lately has a timer that is not due
      have hnot : p ∉ fired := by
        intro hf
        obtain ⟨e, he, hle⟩ := (hT.expires.mem_iff p).mp hf
        rw [pending, ht, Option.map_some, expire_of_payload hpay] at he
        have := Option.some.inj he
        omega
      have hP : payloads tl.mem p = some (fd, w.last fd + 3 * timeslot, cbFunc) := by
        rw [Ticked.payloads hT h.owned.nodup, if_neg hnot, payloads, ht, Option.map_some, hpay]
      exact (hcoupled.timer p _ hP).1
  rw [CloseNonactivity.timerHandler, hcode, pure_bind]
  exact ⟨_, l', rfl, ⟨hT.owned, hcoupled, fun fd hfd => h.bound fd ((hopened fd).mp hfd).1,
    fun fd hfd => (h.past fd ((hopened fd).mp hfd).1).trans hnow⟩, hopened⟩

/-! ### What is seen between the batches -/

/-- **The three structures agree**: the timers `l` on the list are those of the open
descriptors, one for each, and each expires `3 * TIMESLOT` after the last activity
of its descriptor. No descriptor has been closed twice. -/
structure Consistent (w : World) (l : List Addr) : Prop where
  dll : IsDll w.main.timerList.mem w.main.timerList.head l
  nodup : l.Nodup
  mem_iff : ∀ p, p ∈ l ↔
    ∃ fd ∈ w.main.server.opened, (w.main.server.users fd).timer = some p
  timer : ∀ fd ∈ w.main.server.opened, ∃ p ∈ l, (w.main.server.users fd).timer = some p ∧
    expireAt w.main.timerList.mem p = w.last fd + 3 * timeslot
  inj : ∀ fd ∈ w.main.server.opened, ∀ fd' ∈ w.main.server.opened,
    (w.main.server.users fd).timer = (w.main.server.users fd').timer → fd = fd'
  ebadf : w.main.server.ebadf = 0

theorem Inv.consistent (h : Inv w l) : Consistent w l where
  dll := h.owned.seg.isDll
  nodup := h.owned.nodup
  mem_iff := by
    intro p
    constructor
    · intro hp
      obtain ⟨t, ht⟩ := h.owned.seg.alive hp
      have hP : payloads w.main.timerList.mem p = some t.payload := by
        rw [payloads, ht, Option.map_some]
      exact ⟨_, h.coupled.timer p _ hP⟩
    · rintro ⟨fd, hfd, hp⟩
      obtain ⟨p', -, hp', -, -, hl⟩ := h.client hfd
      rwa [Option.some.inj (hp.symm.trans hp')]
  timer := by
    intro fd hfd
    obtain ⟨p, t, hp, ht, hpay, hl⟩ := h.client hfd
    exact ⟨p, hl, hp, by rw [expireAt_some ht, expire_of_payload hpay]⟩
  inj := fun _ hfd _ hfd' heq => h.coupled.timer_inj hfd hfd' heq
  ebadf := h.coupled.ebadf

/-- **What the end of a batch does**: if the alarm went off, the descriptors that
stay open are those with activity in the last `3 * TIMESLOT`; otherwise nothing
happens. -/
def Struck (w w' : World) (cur : ℤ) : Prop :=
  if w.main.timeout then
    ∀ fd, fd ∈ w'.main.server.opened ↔
      fd ∈ w.main.server.opened ∧ ¬w.last fd ≤ cur - 3 * timeslot
  else w' = w

theorem Inv.finish (h : Inv w l) (hnow : w.now ≤ cur) :
    ∃ w' l', CloseNonactivity.finish w cur = pure w' ∧ Inv w' l' ∧ Struck w w' cur := by
  rw [CloseNonactivity.finish]
  by_cases htimeout : w.main.timeout
  · obtain ⟨s, l', hcode, hinv, hopened⟩ := h.timerHandler hnow
    rw [if_pos htimeout, hcode, pure_bind]
    refine ⟨_, l', rfl, hinv, ?_⟩
    rw [Struck, if_pos htimeout]
    intro fd
    rw [not_le]
    exact hopened fd
  · rw [if_neg htimeout]
    refine ⟨w, l, rfl, h, ?_⟩
    rw [Struck, if_neg htimeout]

theorem inv_init (hw : (program cfg).init w) : Inv w [] where
  owned := hw.1 ▸ owned_empty
  coupled := by
    obtain ⟨htl, hopen, hwatched, hebadf, -⟩ := hw
    refine ⟨fun fd hfd => ?_, fun p y hy => ?_, by rw [hopen, hwatched], hebadf⟩
    · rw [hopen] at hfd
      exact absurd hfd (Finset.notMem_empty fd)
    · rw [htl] at hy
      cases hy
  bound := fun fd hfd => absurd (hw.2.1 ▸ hfd) (Finset.notMem_empty fd)
  past := fun fd hfd => absurd (hw.2.1 ▸ hfd) (Finset.notMem_empty fd)

/-- **An iteration of the main loop** returns and keeps the invariant. -/
theorem Inv.batch (h : Inv w l) {b : Batch} (hb : (program cfg).allowed w b) :
    ∃ w₁ w₂ l₂, CloseNonactivity.handleAll cfg w b.events = pure w₁ ∧
      (program cfg).exec w b = pure w₂ ∧ Inv w₂ l₂ ∧ Struck w₁ w₂ b.cur := by
  obtain ⟨w₁, l₁, hall, hinv₁⟩ := h.handleAll hb.2.1
  obtain ⟨w₂, l₂, hfin, hinv₂, hstruck⟩ := hinv₁.finish (hb.2.2 w₁ hall)
  refine ⟨w₁, w₂, l₂, hall, ?_, hinv₂, hstruck⟩
  change CloseNonactivity.handleAll cfg w b.events >>= _ = _
  rw [hall, pure_bind, hfin]

/-- **Idle connections are closed.** Between batches the list, the table and the open
descriptors agree; and every iteration returns – no deleted timer is touched –
after closing exactly the connections that have been idle for `3 * TIMESLOT`. -/
theorem idle_closed (h : (program cfg).Reachable w) :
    (∃ l, Consistent w l) ∧ ∀ b, (program cfg).allowed w b →
      ∃ w₁ w₂, CloseNonactivity.handleAll cfg w b.events = pure w₁ ∧
        (program cfg).exec w b = pure w₂ ∧ Struck w₁ w₂ b.cur := by
  obtain ⟨⟨l, hl⟩, -⟩ := Program.safe (I := fun w => ∃ l, Inv w l)
    (fun w hw => ⟨[], inv_init hw⟩) (fun w b ⟨l, hl⟩ hb => by
      obtain ⟨w₁, w₂, l₂, -, hexec, hinv, -⟩ := hl.batch hb
      exact ⟨w₂, hexec, l₂, hinv⟩) h
  refine ⟨⟨l, hl.consistent⟩, fun b hb => ?_⟩
  obtain ⟨w₁, w₂, -, hall, hexec, -, hstruck⟩ := hl.batch hb
  exact ⟨w₁, w₂, hall, hexec, hstruck⟩

/-- A server that has accepted one connection, at time `100`. -/
theorem idle_closed_accept :
    ∃ w : World, 7 ∈ w.main.server.opened ∧ w.last 7 = 100 ∧ (∃ l, Consistent w l) ∧
      ∀ b, (program ⟨3, 4⟩).allowed w b →
        ∃ w₁ w₂, CloseNonactivity.handleAll ⟨3, 4⟩ w b.events = pure w₁ ∧
          (program ⟨3, 4⟩).exec w b = pure w₂ ∧ Struck w₁ w₂ b.cur := by
  have h₁ : (program ⟨3, 4⟩).Reachable _ := .step
    (a := ⟨[⟨3, true, 7, 1000, 100, .bytes []⟩], 100⟩)
    (.init (s := { main := { timerList := .empty, server := ⟨fun _ => ⟨0, none⟩, ∅, ∅, 0⟩,
                             timeout := false, stopServer := false },
                   now := 0, last := fun _ => 0 }) ⟨rfl, rfl, rfl, rfl, rfl, rfl⟩)
    ⟨⟨rfl, ⟨⟨⟨by decide, fun _ => ⟨by decide, by simp, rfl⟩⟩, fun h => absurd rfl h⟩,
      fun _ _ => trivial⟩, by
        intro w' hw'
        rw [← Exec.pure_inj.mp hw']⟩, rfl⟩
  exact ⟨_, Finset.mem_insert_self 7 ∅, rfl, idle_closed h₁⟩

end CloseNonactivity

end Candcpp
