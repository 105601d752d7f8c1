import Candcpp.Net.HelloClass

/-!
# Every run of the server with one loop and a pool of threads

In a run in which a connection is deleted only where nothing else needs it, everything that
is pending concerns a live connection: `Candcpp.HelloClass.Inv`. Most steps of a thread keep
every connection as the other threads know it (`Candcpp.HelloClass.Keeps`). The two that do
not are the one that sets the callback, which no thread has called before, and the one that
deletes a connection.
-/

namespace Candcpp

open Cpp

namespace HelloClass

/-! ### What a thread relies on -/

/-- What holds while a call of `echo` is running. -/
def EchoOk (s : Server) : Echo → Prop
  | .reading a | .ended a => ∃ c, s.Live a c
  | .called a => ∃ c, s.Live a c ∧ c.callback = true
  | .found a conn => (∀ b ∈ conn, b = a) ∧ ∃ c, s.Live a c ∧ c.callback = true
  | .erased a conn =>
    (∀ b ∈ conn, b = a) ∧
      ∃ c, s.Live a c ∧ c.callback = true ∧ s.connections.val c.fd ≠ some (some a)

/-- What holds while a thread is on its way: a connection that is being admitted has no
callback yet. -/
def WorkerOk (s : Server) : HelloWorker → Prop
  | .idle | .accepting => True
  | .constructed a | .entered a => ∃ c, s.Live a c ∧ c.callback = false
  | .echo call => EchoOk s call

/-- A task is for a live connection. -/
def TaskOk (s : Server) : HelloTask → Prop
  | .acceptConnection => True
  | .echo a => ∃ c, s.Live a c

/-- **The connection at `b` is kept as it is known**: its entry does not come back after it
has been erased. -/
def Keeps (s s' : Server) (b : Addr) : Prop :=
  ∀ c, s.Live b c → s'.Live b c ∧ (c.callback = true →
    s.connections.val c.fd ≠ some (some b) → s'.connections.val c.fd ≠ some (some b))

section Keeps

variable {s s' : Server} {a b : Addr} {c e : Connection} {call : Echo} {w : HelloWorker}

theorem EchoOk.live (h : EchoOk s call) : ∃ c, s.Live call.this c := by
  cases call with
  | reading a => exact h
  | ended a => exact h
  | called a => exact h.imp fun _ h => h.1
  | found a conn => exact h.2.imp fun _ h => h.1
  | erased a conn => exact h.2.imp fun _ h => h.1

theorem EchoOk.keeps (h : EchoOk s call) (hk : Keeps s s' call.this) : EchoOk s' call := by
  cases call with
  | reading a =>
    obtain ⟨c, hc⟩ := h
    exact ⟨c, (hk c hc).1⟩
  | ended a =>
    obtain ⟨c, hc⟩ := h
    exact ⟨c, (hk c hc).1⟩
  | called a =>
    obtain ⟨c, hc, hset⟩ := h
    exact ⟨c, (hk c hc).1, hset⟩
  | found a conn =>
    obtain ⟨hconn, c, hc, hset⟩ := h
    exact ⟨hconn, c, (hk c hc).1, hset⟩
  | erased a conn =>
    obtain ⟨hconn, c, hc, hset, hval⟩ := h
    exact ⟨hconn, c, (hk c hc).1, hset, (hk c hc).2 hset hval⟩

/-- A call of `echo` whose connection has no callback yet has not come far. -/
theorem EchoOk.early (h : EchoOk s call) (hc : s.Live call.this c) (hset : c.callback = false)
    (he : s'.Live call.this e) : EchoOk s' call := by
  have hno : ∀ d, s.Live call.this d → d.callback ≠ true := by
    intro d hd htrue
    rw [hd.inj hc, hset] at htrue
    cases htrue
  cases call with
  | reading a => exact ⟨e, he⟩
  | ended a => exact ⟨e, he⟩
  | called a =>
    obtain ⟨d, hd, htrue⟩ := h
    exact absurd htrue (hno d hd)
  | found a conn =>
    obtain ⟨-, d, hd, htrue⟩ := h
    exact absurd htrue (hno d hd)
  | erased a conn =>
    obtain ⟨-, d, hd, htrue, -⟩ := h
    exact absurd htrue (hno d hd)

theorem WorkerOk.keeps (h : WorkerOk s w)
    (hk : ∀ b, w.admitting = some b ∨ w.this = some b → Keeps s s' b) : WorkerOk s' w := by
  cases w with
  | idle => trivial
  | accepting => trivial
  | constructed a =>
    obtain ⟨c, hc, hset⟩ := h
    exact ⟨c, (hk a (Or.inl rfl) c hc).1, hset⟩
  | entered a =>
    obtain ⟨c, hc, hset⟩ := h
    exact ⟨c, (hk a (Or.inl rfl) c hc).1, hset⟩
  | echo call => exact EchoOk.keeps h (hk _ (Or.inr rfl))

theorem WorkerOk.admitting (h : WorkerOk s w) (ha : w.admitting = some a) :
    ∃ c, s.Live a c ∧ c.callback = false := by
  cases w with
  | constructed b => exact Option.some.inj ha ▸ h
  | entered b => exact Option.some.inj ha ▸ h
  | _ => cases ha

theorem TaskOk.keeps {t : HelloTask} (h : TaskOk s t) (hk : ∀ b, t = .echo b → Keeps s s' b) :
    TaskOk s' t := by
  cases t with
  | acceptConnection => trivial
  | echo a =>
    obtain ⟨c, hc⟩ := h
    exact ⟨c, (hk a rfl c hc).1⟩

theorem keeps_refl (s : Server) (b : Addr) : Keeps s s b := fun _ hc => ⟨hc, fun _ h => h⟩

theorem keeps_construct (s : Server) (fd : ℕ) (b : Addr) : Keeps s (s.construct fd) b :=
  fun _ hc => ⟨Server.live_construct.mpr (Or.inl hc), fun _ h => h⟩

/-- A connection is entered while it has no callback. -/
theorem keeps_enter (hok : s.Ok) (hc : s.Live a c) (hset : c.callback = false) (b : Addr) :
    Keeps s { s with connections := s.connections.insert c.fd (some a) } b := by
  refine fun d hd => ⟨hd, fun htrue hval h => ?_⟩
  rcases Map.of_insert h with ⟨heq, -⟩ | ⟨-, hold⟩
  · obtain rfl := hok.fds hd hc heq
    rw [hd.inj hc, hset] at htrue
    cases htrue
  · exact hval hold

theorem keeps_null (s : Server) (k : ℕ) (b : Addr) :
    Keeps s { s with connections := s.connections.insert k none } b := by
  refine fun d hd => ⟨hd, fun _ hval h => ?_⟩
  rcases Map.of_insert h with ⟨-, hnew⟩ | ⟨-, hold⟩
  · cases hnew
  · exact hval hold

theorem keeps_erase (s : Server) (k : ℕ) (b : Addr) :
    Keeps s { s with connections := s.connections.erase k } b :=
  fun _ hd => ⟨hd, fun _ hval h => hval (Map.of_erase h).2⟩

/-- Whatever happens to the object at `a`, the others are kept. -/
theorem keeps_set (hc : s.Live a c) (e : Connection) (hba : b ≠ a) :
    Keeps s { s with objects := s.objects.set a e } b :=
  fun _ hd => ⟨(Server.live_set hc rfl).mpr (Or.inl ⟨hba, hd⟩), fun _ h => h⟩

end Keeps

/-! ### The invariant -/

/-- **The invariant**: whatever is pending is for a live connection. -/
structure Inv (s : HelloClass) : Prop where
  ok : s.server.Ok
  workers : ∀ (i : ℕ) w, s.workers[i]? = some w → WorkerOk s.server w
  /-- A connection is admitted by a single thread. -/
  once : ∀ (i j : ℕ) v w a, s.workers[i]? = some v → s.workers[j]? = some w →
    v.admitting = some a → w.admitting = some a → i = j
  tasks : ∀ t ∈ s.tasks, TaskOk s.server t
  events : ∀ t ∈ s.events, TaskOk s.server t

variable {s s' : HelloClass} {i : ℕ} {w next : HelloWorker} {a : Addr} {c : Connection}

theorem inv_create (size : ℕ) : Inv (create size) where
  ok := Server.ok_create
  workers := by
    intro i w hi
    obtain rfl := List.eq_of_mem_replicate (List.mem_of_getElem? hi)
    trivial
  once := by
    intro i j v w a hi _ hv
    obtain rfl := List.eq_of_mem_replicate (List.mem_of_getElem? hi)
    cases hv
  tasks := fun t ht => absurd ht List.not_mem_nil
  events := fun t ht => absurd ht List.not_mem_nil

/-- **A thread moves**: what the others rely on must not be touched. -/
theorem Inv.move (h : Inv s) (hi : s.workers[i]? = some w) {server : Server}
    {tasks : List HelloTask} (hok : server.Ok)
    (hothers : ∀ (j : ℕ) v, j ≠ i → s.workers[j]? = some v → WorkerOk server v)
    (hnext : WorkerOk server next)
    (honce : ∀ a, next.admitting = some a → w.admitting = some a ∨
      ∀ v ∈ s.workers, v.admitting ≠ some a)
    (htasks : ∀ t ∈ tasks, TaskOk server t) (hevents : ∀ t ∈ s.events, TaskOk server t) :
    Inv
      { s with
        server := server
        tasks := tasks
        workers := s.workers.set i next } := by
  -- the connection that the thread now admits is not admitted by another one
  have halone : ∀ (j : ℕ) v b, i ≠ j → s.workers[j]? = some v → next.admitting = some b →
      v.admitting ≠ some b := by
    intro j v b hij hj hb hv
    rcases honce b hb with hw | hnew
    · exact hij (h.once i j w v b hi hj hw hv)
    · exact hnew v (List.mem_of_getElem? hj) hv
  constructor
  · exact hok
  · intro j v hj
    rcases WaitSet.getElem?_move hj with ⟨-, rfl⟩ | ⟨hij, hj⟩
    · exact hnext
    · exact hothers j v hij.symm hj
  · intro j k v v' b hj hk hv hv'
    rcases WaitSet.getElem?_move hj with ⟨rfl, rfl⟩ | ⟨hij, hold⟩ <;>
      rcases WaitSet.getElem?_move hk with ⟨rfl, rfl⟩ | ⟨hik, hold'⟩
    · rfl
    · exact absurd hv' (halone k v' b hik hold' hv)
    · exact absurd hv (halone j v b hij hold hv')
    · exact h.once j k v v' b hold hold' hv hv'
  · exact htasks
  · exact hevents

/-- **A thread moves and keeps all connections.** -/
theorem Inv.look (h : Inv s) (hi : s.workers[i]? = some w) {server : Server} (hok : server.Ok)
    (hkeeps : ∀ b, Keeps s.server server b) (hnext : WorkerOk server next)
    (honce : ∀ a, next.admitting = some a → w.admitting = some a ∨
      ∀ v ∈ s.workers, v.admitting ≠ some a) :
    Inv { s with server := server, workers := s.workers.set i next } :=
  h.move hi hok (fun j v _ hj => (h.workers j v hj).keeps fun b _ => hkeeps b) hnext honce
    (fun t ht => (h.tasks t ht).keeps fun b _ => hkeeps b)
    (fun t ht => (h.events t ht).keeps fun b _ => hkeeps b)

/-! ### The steps -/

/-- A callback is put into the queue. -/
theorem Inv.addTask (h : Inv s) (t : HelloTask) (ht : TaskOk s.server t)
    {events : List HelloTask} (hevents : ∀ t ∈ events, TaskOk s.server t) :
    Inv { s with events := events, tasks := s.tasks ++ [t] } := by
  refine { h with tasks := ?_, events := hevents }
  intro t' ht'
  rcases List.mem_append.mp ht' with ht' | ht'
  · exact h.tasks t' ht'
  · exact List.mem_singleton.mp ht' ▸ ht

/-- The loop goes on. -/
theorem Inv.loop (h : Inv s) (hs : s.loop s.events = pure s') : Inv s' := by
  have hevents := h.events
  generalize s.events = events at hs hevents
  rcases events with _ | ⟨_ | a, events⟩
  · exact Exec.pure_inj.mp hs ▸ h
  · obtain rfl := Exec.pure_inj.mp hs
    exact h.addTask .acceptConnection trivial fun t ht => hevents t (List.mem_cons_of_mem _ ht)
  · obtain ⟨c, hc, hs⟩ := Exec.bind_eq_pure.mp hs
    obtain rfl := Exec.pure_inj.mp hs
    exact h.addTask (.echo a) ⟨c, Server.live_of_read hc⟩ fun t ht =>
      hevents t (List.mem_cons_of_mem _ ht)

/-- A client is accepted. -/
theorem Inv.accept (h : Inv s) {fd : Option ℕ} (hi : s.workers[i]? = some .accepting)
    (hfd : ∀ k ∈ fd, ¬s.server.IsOpen k) (hs : s.accept i fd = pure s') : Inv s' := by
  cases fd with
  | none => exact absurd hs.symm (Exec.pure_ne_throw _ _)
  | some fd =>
    obtain rfl := Exec.pure_inj.mp hs
    refine h.look hi (h.ok.construct (hfd fd rfl)) (keeps_construct _ _) ?_ fun a ha => Or.inr ?_
    · exact ⟨_, Server.live_construct.mpr (Or.inr ⟨rfl, rfl⟩), rfl⟩
    · obtain rfl := Option.some.inj ha
      intro v hv hadmitting
      obtain ⟨j, hj⟩ := List.getElem?_of_mem hv
      obtain ⟨c, hc, -⟩ := (h.workers j v hj).admitting hadmitting
      exact absurd (List.getElem?_eq_some_iff.mp hc.1).1 (lt_irrefl _)

/-- The callback of a new connection is set. -/
theorem Inv.setCallback (h : Inv s) (hi : s.workers[i]? = some (.entered a))
    (hc : s.server.Live a c) (hunset : c.callback = false) :
    Inv
      { s with
        server :=
          { s.server with objects := s.server.objects.set a { c with callback := true } }
        workers := s.workers.set i .idle } := by
  have hnew : Server.Live
      { s.server with objects := s.server.objects.set a { c with callback := true } } a
        { c with callback := true } :=
    (Server.live_set hc rfl).mpr (Or.inr ⟨rfl, rfl, hc.2⟩)
  have htask : ∀ t, TaskOk s.server t → TaskOk
      { s.server with objects := s.server.objects.set a { c with callback := true } } t := by
    intro t ht
    by_cases heq : t = .echo a
    · subst heq
      exact ⟨_, hnew⟩
    · refine ht.keeps fun b hb => keeps_set hc _ ?_
      rintro rfl
      exact heq hb
  refine h.move hi (h.ok.set hc rfl (Or.inl hc.2)) ?_ trivial ?_
    (fun t ht => htask t (h.tasks t ht)) (fun t ht => htask t (h.events t ht))
  · intro j v hji hj
    have hv := h.workers j v hj
    by_cases hthis : v.this = some a
    · -- a call of `echo` for the new connection
      cases v with
      | echo call =>
        obtain rfl := Option.some.inj hthis
        exact EchoOk.early hv hc hunset hnew
      | _ => cases hthis
    · refine hv.keeps fun b hb => keeps_set hc _ ?_
      rintro rfl
      rcases hb with hb | hb
      · exact hji (h.once j i v _ b hj hi hb rfl)
      · exact hthis hb
  · rintro b ⟨⟩

/-- **The connection is deleted** by the only call of `echo` for it. -/
theorem Inv.delete (h : Inv s) (hi : s.workers[i]? = some (.echo (.erased a (some a))))
    (hc : s.server.Live a c) (hset : c.callback = true)
    (hval : s.server.connections.val c.fd ≠ some (some a)) (halone : s.Alone i a) :
    Inv
      { s with
        server :=
          { s.server with objects := s.server.objects.set a { c with alive := false } }
        workers := s.workers.set i .idle } := by
  have htask : ∀ l : List HelloTask, .echo a ∉ l → (∀ t ∈ l, TaskOk s.server t) → ∀ t ∈ l, TaskOk
      { s.server with objects := s.server.objects.set a { c with alive := false } } t := by
    intro l hl hok t ht
    refine (hok t ht).keeps fun b hb => keeps_set hc _ ?_
    rintro rfl
    exact hl (hb ▸ ht)
  refine h.move hi (h.ok.set hc rfl (Or.inr hval)) ?_ trivial ?_
    (htask _ halone.2.1 h.tasks) (htask _ halone.1 h.events)
  · intro j v hji hj
    have hv := h.workers j v hj
    refine hv.keeps fun b hb => keeps_set hc _ ?_
    rintro rfl
    rcases hb with hb | hb
    · obtain ⟨d, hd, hunset⟩ := hv.admitting hb
      rw [hd.inj hc, hset] at hunset
      cases hunset
    · refine halone.2.2 j (List.getElem?_eq_some_iff.mp hj).1 hji ?_
      rw [hj]
      exact hb
  · rintro b ⟨⟩

/-- **What a step of a call of `echo` does**: it keeps all connections, or it deletes its
own. -/
theorem echo_cases {server server' : Server} (hok : server.Ok) {call : Echo}
    (h : EchoOk server call) {n : ReadResult} {after : Option Echo}
    (hecho : server.echo call n = pure (after, server')) :
    (server'.Ok ∧ (∀ b, Keeps server server' b) ∧ WorkerOk server' (.after after)) ∨
    ∃ a c, call = .erased a (some a) ∧ after = none ∧ server.Live a c ∧ c.callback = true ∧
      server.connections.val c.fd ≠ some (some a) ∧
      server' = { server with objects := server.objects.set a { c with alive := false } } := by
  obtain ⟨c, hc⟩ := h.live
  cases call with
  | reading a =>
    obtain ⟨after', hreading, hafter⟩ := hc.echo_reading n
    obtain ⟨rfl, rfl⟩ := Prod.mk.inj (Exec.pure_unique hreading hecho)
    refine Or.inl ⟨hok, keeps_refl _, ?_⟩
    cases after' with
    | none => trivial
    | some e => rcases hafter e rfl with rfl | rfl <;> exact h
  | ended a =>
    rcases hset : c.callback with _ | _
    · exact absurd (hecho.symm.trans (hc.echo_ended_unset hset n)) (Exec.pure_ne_throw _ _)
    obtain ⟨rfl, rfl⟩ := Prod.mk.inj (Exec.pure_unique (hc.echo_ended hset n) hecho)
    exact Or.inl ⟨hok, keeps_refl _, ⟨c, hc, hset⟩⟩
  | called a =>
    change server.Live a c at hc
    obtain ⟨d, hd, hset⟩ := h
    obtain rfl := hd.inj hc
    rcases hval : server.connections.val d.fd with _ | conn
    · obtain ⟨rfl, rfl⟩ := Prod.mk.inj (Exec.pure_unique (hc.echo_called_none hval n) hecho)
      refine Or.inl ⟨hok.insert (by rintro a ⟨⟩), keeps_null _ _, ?_⟩
      exact ⟨by rintro b ⟨⟩, d, hd, hset⟩
    · obtain ⟨rfl, rfl⟩ := Prod.mk.inj (Exec.pure_unique (hc.echo_called hval n) hecho)
      refine Or.inl ⟨hok, keeps_refl _, ⟨?_, d, hd, hset⟩⟩
      -- the entry, if it is not null, leads to the connection itself
      rintro b rfl
      obtain ⟨e, he, hfd⟩ := hok.entries hval
      exact hok.fds he hd hfd
  | found a conn =>
    obtain ⟨hconn, d, hd, hset⟩ := h
    obtain ⟨rfl, rfl⟩ := Prod.mk.inj (Exec.pure_unique (hd.echo_found conn n) hecho)
    exact Or.inl ⟨hok.erase _, keeps_erase _ _,
      ⟨hconn, d, hd, hset, fun hval => (Map.of_erase hval).1 rfl⟩⟩
  | erased a conn =>
    obtain ⟨hconn, d, hd, hset, hval⟩ := h
    cases conn with
    | none =>
      obtain ⟨rfl, rfl⟩ := Prod.mk.inj
        (Exec.pure_unique (Server.echo_erased_null server a n) hecho)
      exact Or.inl ⟨hok, keeps_refl _, trivial⟩
    | some b =>
      obtain rfl := hconn b rfl
      obtain ⟨rfl, rfl⟩ := Prod.mk.inj (Exec.pure_unique (hd.echo_erased b n) hecho)
      exact Or.inr ⟨b, d, rfl, rfl, hd, hset, hval, rfl⟩

/-- A thread goes on. -/
theorem Inv.worker (h : Inv s) {n : ReadResult} (hsingle : s.Single (.worker i n))
    (hi : s.workers[i]? = some w) (hs : s.execWorker i n w = pure s') : Inv s' := by
  have hw := h.workers i w hi
  cases w with
  | idle =>
    have htasks := h.tasks
    rw [execWorker] at hs
    split at hs
    · exact Exec.pure_inj.mp hs ▸ h
    · rename_i t tasks heq
      obtain rfl := Exec.pure_inj.mp hs
      rw [heq] at htasks
      refine h.move hi h.ok (fun j v _ hj => h.workers j v hj) ?_ ?_
        (fun t ht => htasks t (List.mem_cons_of_mem _ ht)) h.events
      · have ht := htasks t List.mem_cons_self
        cases t with
        | acceptConnection => trivial
        | echo a => exact ht
      · intro a ha
        cases t <;> cases ha
  | accepting => exact Exec.pure_inj.mp hs ▸ h
  | constructed a =>
    obtain ⟨c, hc, hunset⟩ := hw
    rw [execWorker, hc.enter_eq, pure_bind] at hs
    obtain rfl := Exec.pure_inj.mp hs
    -- the entry that is replaced, if any, is of no connection that is alive
    refine h.look hi (h.ok.insert ?_) (keeps_enter h.ok hc hunset) ⟨c, hc, hunset⟩ fun b hb =>
      Or.inl hb
    rintro b ⟨⟩
    exact ⟨c, hc, rfl⟩
  | entered a =>
    obtain ⟨c, hc, hunset⟩ := hw
    rw [execWorker, hc.setCallback_eq, pure_bind] at hs
    obtain rfl := Exec.pure_inj.mp hs
    exact h.setCallback hi hc hunset
  | echo call =>
    obtain ⟨⟨after, server⟩, hecho, hs⟩ := Exec.bind_eq_pure.mp hs
    obtain rfl := Exec.pure_inj.mp hs
    rcases echo_cases h.ok hw hecho with
      ⟨hok, hkeeps, hafter⟩ | ⟨a, c, rfl, rfl, hc, hset, hval, rfl⟩
    · refine h.look hi hok hkeeps hafter ?_
      rintro b hb
      cases after <;> cases hb
    -- no other call needs the connection that is deleted
    · refine h.delete hi hc hset hval (hsingle a ?_)
      rw [deleting, hi]
      rfl

/-- **Every step keeps the invariant**, if it deletes a connection only where no other call
of `echo` needs it. -/
theorem Inv.step (h : Inv s) {act : Act} (hall : s.Allowed act) (hsingle : s.Single act)
    (hs : s.exec act = pure s') : Inv s' := by
  cases act with
  | poll events =>
    obtain rfl := Exec.pure_inj.mp hs
    refine { h with events := fun t ht => ?_ }
    cases t with
    | acceptConnection => trivial
    | echo a =>
      obtain ⟨c, hc, halive⟩ := (Option.any_eq_true _ _).mp (hall.2.2 _ ht)
      exact ⟨c, hc, halive⟩
  | loop => exact h.loop hs
  | accept i fd => exact h.accept hall.1 hall.2 hs
  | worker i n =>
    rw [exec] at hs
    split at hs
    · rename_i w hi
      exact h.worker hsingle hi hs
    · exact Exec.pure_inj.mp hs ▸ h

theorem Inv.safe (h : Inv s) : Safe s where
  running := fun i call hi => EchoOk.live (h.workers i _ hi)
  deleting := by
    intro i a hdel
    rw [deleting] at hdel
    split at hdel
    · rename_i b conn hi
      obtain ⟨hconn, c, hc, -⟩ := h.workers i _ hi
      exact ⟨c, hconn a hdel ▸ hc⟩
    · cases hdel

/-- **In a safe state no call of `echo` is at fault** for a connection that has been deleted. -/
theorem Safe.not_dangling (h : Safe s) {call : Echo} (hi : s.workers[i]? = some (.echo call))
    (n : ReadResult) : s.server.echo call n ≠ throw .dangling := by
  obtain ⟨c, hc⟩ := h.running i call hi
  cases call with
  | reading a =>
    change s.server.Live a c at hc
    obtain ⟨after, hreading, -⟩ := hc.echo_reading n
    rw [hreading]
    exact Exec.pure_ne_throw _ _
  | ended a =>
    change s.server.Live a c at hc
    rcases hset : c.callback with _ | _
    · rw [hc.echo_ended_unset hset]
      rintro ⟨⟩
    · rw [hc.echo_ended hset]
      exact Exec.pure_ne_throw _ _
  | called a =>
    change s.server.Live a c at hc
    rcases hval : s.server.connections.val c.fd with _ | conn
    · rw [hc.echo_called_none hval]
      exact Exec.pure_ne_throw _ _
    · rw [hc.echo_called hval]
      exact Exec.pure_ne_throw _ _
  | found a conn =>
    change s.server.Live a c at hc
    rw [hc.echo_found]
    exact Exec.pure_ne_throw _ _
  | erased a conn =>
    cases conn with
    | none =>
      rw [Server.echo_erased_null]
      exact Exec.pure_ne_throw _ _
    | some b =>
      obtain ⟨d, hd⟩ := h.deleting i b (by rw [HelloClass.deleting, hi])
      rw [hd.echo_erased]
      exact Exec.pure_ne_throw _ _

/-! ### Every run -/

/-- **No call of `echo` uses a connection that has been deleted**, and none is deleted twice,
in every run in which a connection is deleted only where no other call needs it. -/
theorem run_echoSafe {size : ℕ} {l : List (HelloClass × Act)}
    (hl : (program size).lts.Run (create size) l s) (hsingle : ∀ p ∈ l, p.1.Single p.2) :
    ∀ t ∈ Lts.visited l s, Safe t := by
  intro t ht
  refine Inv.safe (hl.invariant (I := Inv) (inv_create size) ?_ t ht)
  intro p hp t hinv hstep
  exact hinv.step hstep.1 (hsingle p hp) hstep.2

/-- A client has two calls of `echo`, one after the other, and the second one deletes its
connection. -/
theorem run_echoSafe_two : ∃ l s, (program 2).lts.Run (create 2) l s ∧ ¬s.server.IsOpen 5 ∧
    ∀ t ∈ Lts.visited l s, Safe t := by
  have hrun := Lts.Run.of_trace (M := (program 2).lts) (f := (program 2).tryStep)
    Program.tryStep_step (s := create 2)
    (l := [.poll [.acceptConnection], .loop, .worker 0 .data, .accept 0 (some 5),
      .worker 0 .data, .worker 0 .data, .poll [.echo 0], .loop, .poll [.echo 0], .loop,
      .worker 0 .data, .worker 1 .data, .worker 0 .data, .worker 0 .again, .worker 1 .eof,
      .worker 1 .data, .worker 1 .data, .worker 1 .data, .worker 1 .data]) rfl
  exact ⟨_, _, hrun, by decide, run_echoSafe hrun (by decide)⟩

/-- A client has two calls of `echo` at once, and one of them deletes its connection. -/
theorem not_echoSafe : ¬∀ size s, (program size).Reachable s → Safe s := by
  intro h
  have hinit : (program 2).Reachable (create 2) := .init rfl
  have hrun := hinit.foldlM Program.tryStep_step
    (l := [.poll [.acceptConnection], .loop, .worker 0 .data, .accept 0 (some 5),
      .worker 0 .data, .worker 0 .data, .poll [.echo 0], .loop, .poll [.echo 0], .loop,
      .worker 0 .data, .worker 1 .data, .worker 0 .eof, .worker 0 .data, .worker 0 .data,
      .worker 0 .data, .worker 0 .data]) rfl
  obtain ⟨c, hc, halive⟩ := (h 2 _ hrun).running 1 (.reading 0) rfl
  obtain rfl := Option.some.inj hc
  cases halive

end HelloClass

end Candcpp
