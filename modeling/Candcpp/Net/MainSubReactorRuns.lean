import Candcpp.Net.MainSubReactor

/-!
# Every run of the server with sub-reactors

`Candcpp.MainSubReactor.Inv` is kept by every step of every thread. It says in particular
that a connection has its entry in the map unless it is being admitted or deleted, and that
its callback is set unless it is being admitted.

So a client may be gone too early: where a sub-reactor has read the end of the file while
`handleNewConnection` is still busy with the connection, it calls an empty function. This is
the only case (`Candcpp.MainSubReactor.reachable_admitted_iff`).
-/

namespace Candcpp

open Cpp

namespace MainSubReactor

/-! ### The invariant -/

/-- **A connection has been admitted**: its callback is set, and the entry of its descriptor
is this very connection. -/
def Admitted (s : Server) (a : Addr) : Prop :=
  ∃ c, s.Live a c ∧ c.callback = true ∧ s.connections.val c.fd = some (some a)

/-- The sub-reactor `r` is about to call `deleteConnectionCallback` of the connection at `a`. -/
def Calling (s : MainSubReactor) (r : ℕ) (a : Addr) : Prop :=
  ∃ events, s.reactors[r]? = some { events := events, call := some (.ended a) }

/-- What holds while a call of `echo` is running: once it is in `handleDeleteConnection`, its
connection has been admitted, and has its entry until the call has erased it. -/
def CallOk (s : Server) : Echo → Prop
  | .reading _ | .ended _ => True
  | .called a => Admitted s a
  | .found a conn => conn = some a ∧ Admitted s a
  | .erased a conn =>
    conn = some a ∧ ∃ c, s.Live a c ∧ c.callback = true ∧ s.connections.val c.fd = none

/-- **The invariant of a sub-reactor**, the one of index `r` among `size`. -/
structure ReactorOk (s : Server) (size r : ℕ) (this : SubReactor) : Prop where
  nodup : this.pending.Nodup
  /-- It uses live connections, and only those assigned to it. -/
  mine : ∀ a ∈ this.pending, ∃ c, s.Live a c ∧ c.fd % size = r
  call : ∀ e, this.call = some e → CallOk s e

/-- A sub-reactor has erased the entry of the connection at `a`, which it is about to
delete. -/
def Leaving (reactors : List SubReactor) (a : Addr) : Prop :=
  ∃ r ∈ reactors, ∃ conn, r.call = some (.erased a conn)

/-- **The invariant of the server.** -/
structure Inv (s : MainSubReactor) : Prop where
  ok : s.server.Ok
  /-- There are no null entries. -/
  notNull : ∀ k, s.server.connections.val k ≠ some none
  /-- A connection has an entry, from its admission to its end. -/
  entered : ∀ {a c}, s.server.Live a c → s.main ≠ .constructed a → ¬Leaving s.reactors a →
    s.server.connections.val c.fd = some (some a)
  /-- It has a callback when it has been admitted. -/
  callback : ∀ {a c}, s.server.Live a c → (c.callback = true ↔ s.main.admitting ≠ some a)
  admitting : ∀ a, s.main.admitting = some a → ∃ c, s.server.Live a c
  reactors : ∀ r this, s.reactors[r]? = some this → ReactorOk s.server s.reactors.length r this

section Frame

variable {s s' : Server} {fd size r : ℕ} {this : SubReactor}

/-- A call of `echo` does not notice what happens to other descriptors than its own. -/
theorem CallOk.elsewhere {e : Echo} {c : Connection} (h : CallOk s e) (he : s.Elsewhere s' fd)
    (hc : s.Live e.this c) (hfd : c.fd ≠ fd) : CallOk s' e := by
  cases e with
  | reading a => trivial
  | ended a => trivial
  | called a =>
    obtain ⟨d, hd, hset, hval⟩ := h
    obtain rfl := hd.inj hc
    exact ⟨d, (he.live hfd).mpr hd, hset, (he.val hfd).trans hval⟩
  | found a conn =>
    obtain ⟨hconn, d, hd, hset, hval⟩ := h
    obtain rfl := hd.inj hc
    exact ⟨hconn, d, (he.live hfd).mpr hd, hset, (he.val hfd).trans hval⟩
  | erased a conn =>
    obtain ⟨hconn, d, hd, hset, hval⟩ := h
    obtain rfl := hd.inj hc
    exact ⟨hconn, d, (he.live hfd).mpr hd, hset, (he.val hfd).trans hval⟩

/-- A call of `echo` whose connection is still being admitted has not come far. -/
theorem CallOk.early {e : Echo} {c : Connection} (h : CallOk s e) (hc : s.Live e.this c)
    (hset : c.callback = false) (s' : Server) : CallOk s' e := by
  have hno : ∀ d, s.Live e.this d → d.callback ≠ true := by
    intro d hd htrue
    rw [hd.inj hc, hset] at htrue
    cases htrue
  cases e with
  | reading a => trivial
  | ended a => trivial
  | called a =>
    obtain ⟨d, hd, htrue, -⟩ := h
    exact absurd htrue (hno d hd)
  | found a conn =>
    obtain ⟨-, d, hd, htrue, -⟩ := h
    exact absurd htrue (hno d hd)
  | erased a conn =>
    obtain ⟨-, d, hd, htrue, -⟩ := h
    exact absurd htrue (hno d hd)

theorem mem_pending_of_call {e : Echo} (he : this.call = some e) : e.this ∈ this.pending := by
  rw [SubReactor.pending, he]
  exact List.mem_append_left _ (List.mem_singleton.mpr rfl)

/-- **Frame**: what happens to a descriptor does not concern a sub-reactor, unless a connection
it uses has it; and that one may still be on its way into the server. -/
theorem ReactorOk.elsewhere (h : ReactorOk s size r this) (he : s.Elsewhere s' fd)
    (hfd : ∀ a c, s.Live a c → c.fd = fd → c.fd % size = r →
      c.callback = false ∧ ∃ c', s'.Live a c' ∧ c'.fd = fd) :
    ReactorOk s' size r this where
  nodup := h.nodup
  mine := by
    intro a ha
    obtain ⟨c, hc, hr⟩ := h.mine a ha
    by_cases heq : c.fd = fd
    · obtain ⟨-, c', hc', hfd'⟩ := hfd a c hc heq hr
      exact ⟨c', hc', by rw [hfd', ← heq, hr]⟩
    · exact ⟨c, (he.live heq).mpr hc, hr⟩
  call := by
    intro e hcall
    obtain ⟨c, hc, hr⟩ := h.mine _ (mem_pending_of_call hcall)
    by_cases heq : c.fd = fd
    · exact (h.call e hcall).early hc (hfd _ c hc heq hr).1 s'
    · exact (h.call e hcall).elsewhere he hc heq

end Frame

variable {s s' : MainSubReactor} {a b : Addr} {c d : Connection}

theorem inv_create (size : ℕ) : Inv (create size) where
  ok := Server.ok_create
  notNull := by
    rintro k ⟨⟩
  entered := by
    rintro a c ⟨h, -⟩
    cases h
  callback := by
    rintro a c ⟨h, -⟩
    cases h
  admitting := by
    rintro a ⟨⟩
  reactors := by
    intro r this hr
    obtain rfl := List.eq_of_mem_replicate (List.mem_of_getElem? hr)
    constructor
    · exact List.nodup_nil
    · exact fun a ha => absurd ha List.not_mem_nil
    · rintro e ⟨⟩

/-- Where no connection is being admitted, each has its callback. -/
theorem Inv.polled (h : Inv s) (hmain : s.main.admitting = none) (hc : s.server.Live a c) :
    c.callback = true := by
  refine (h.callback hc).mpr ?_
  rw [hmain]
  rintro ⟨⟩

/-- The connection that is being admitted has none. -/
theorem Inv.unset (h : Inv s) (hmain : s.main.admitting = some a)
    (hc : s.server.Live a c) : c.callback = false := by
  rw [← Bool.not_eq_true, h.callback hc]
  exact fun hne => hne hmain

/-! ### The main reactor -/

/-- A client is accepted. -/
theorem Inv.accept (h : Inv s) {fd : ℕ} (hmain : s.main = .polling)
    (hfd : ¬s.server.IsOpen fd) (hs : s.accept fd = pure s') : Inv s' := by
  rw [MainSubReactor.accept] at hs
  split at hs
  · exact absurd hs.symm (Exec.pure_ne_throw _ _)
  obtain rfl := Exec.pure_inj.mp hs
  have hnew : ∀ {b d}, s.server.Live b d → b ≠ s.server.objects.length := by
    rintro b d hd rfl
    exact absurd (List.getElem?_eq_some_iff.mp hd.1).1 (lt_irrefl _)
  constructor
  · exact h.ok.construct hfd
  · exact h.notNull
  · intro b d hd hne hleaving
    rcases Server.live_construct.mp hd with hd | ⟨rfl, -⟩
    · exact h.entered hd (by rw [hmain]; rintro ⟨⟩) hleaving
    · exact absurd rfl hne
  · intro b d hd
    rcases Server.live_construct.mp hd with hd | ⟨rfl, rfl⟩
    · refine iff_of_true (h.polled (by rw [hmain]; rfl) hd) fun heq => ?_
      exact hnew hd (Option.some.inj heq).symm
    · exact iff_of_false (by rintro ⟨⟩) fun hne => hne rfl
  · rintro b hb
    exact ⟨_, Server.live_construct.mpr (Or.inr ⟨(Option.some.inj hb).symm, rfl⟩)⟩
  · intro r this hr
    refine (h.reactors r this hr).elsewhere Server.elsewhere_construct fun b d hd heq _ => ?_
    exact absurd heq (hd.ne_fd hfd)

/-- The new connection is entered into the map. -/
theorem Inv.enter (h : Inv s) (hmain : s.main = .constructed a) (hc : s.server.Live a c) :
    Inv
      { s with
        server :=
          { s.server with connections := s.server.connections.insert c.fd (some a) }
        main := .entered a } := by
  have hadmitting : s.main.admitting = some a := by rw [hmain]; rfl
  have hunset := h.unset hadmitting hc
  constructor
  · refine h.ok.insert fun b hb => ?_
    obtain rfl := Option.some.inj hb
    exact ⟨c, hc, rfl⟩
  · intro k hk
    rcases Map.of_insert hk with ⟨-, hnew⟩ | ⟨-, hold⟩
    · cases hnew
    · exact h.notNull k hold
  -- the map has an entry for each connection now, the new one included
  · intro b d hd _ hleaving
    by_cases hba : b = a
    · subst hba
      obtain rfl := hc.inj hd
      exact Map.insert_self _ _ _
    · have hne : d.fd ≠ c.fd := fun heq => hba (h.ok.fds hd hc heq)
      refine (Map.insert_of_ne _ _ hne).trans (h.entered hd ?_ hleaving)
      rw [hmain]
      exact fun heq => hba (MainReactor.constructed.inj heq).symm
  · intro b d hd
    refine (h.callback hd).trans ?_
    rw [hadmitting]
    exact Iff.rfl
  · intro b hb
    exact h.admitting b (hadmitting.trans hb)
  · intro r this hr
    refine (h.reactors r this hr).elsewhere (Server.elsewhere_insert _ _ _) ?_
    intro b d hd heq _
    obtain rfl := h.ok.fds hd hc heq
    obtain rfl := hd.inj hc
    exact ⟨hunset, d, hd, rfl⟩

/-- The callback of the new connection is set. -/
theorem Inv.setCallback (h : Inv s) (hmain : s.main = .entered a) (hc : s.server.Live a c) :
    Inv
      { s with
        server :=
          { s.server with objects := s.server.objects.set a { c with callback := true } }
        main := .polling } := by
  have hadmitting : s.main.admitting = some a := by rw [hmain]; rfl
  have hunset := h.unset hadmitting hc
  have hentered := h.entered hc (by rw [hmain]; rintro ⟨⟩)
  constructor
  · exact h.ok.set hc rfl (Or.inl hc.2)
  · exact h.notNull
  · intro b d hd _ hleaving
    rcases (Server.live_set hc rfl).mp hd with ⟨-, hd⟩ | ⟨rfl, rfl, -⟩
    · exact h.entered hd (by rw [hmain]; rintro ⟨⟩) hleaving
    · exact hentered hleaving
  · intro b d hd
    refine iff_of_true ?_ (by rintro ⟨⟩)
    rcases (Server.live_set hc rfl).mp hd with ⟨hba, hd⟩ | ⟨-, rfl, -⟩
    · refine (h.callback hd).mpr ?_
      rw [hadmitting]
      exact fun heq => hba (Option.some.inj heq).symm
    · rfl
  · rintro b ⟨⟩
  · intro r this hr
    refine (h.reactors r this hr).elsewhere (Server.elsewhere_set hc rfl) ?_
    intro b d hd heq _
    obtain rfl := h.ok.fds hd hc heq
    obtain rfl := hd.inj hc
    exact ⟨hunset, _, (Server.live_set hc rfl).mpr (Or.inr ⟨rfl, rfl, hc.2⟩), rfl⟩

/-- An access to `*iter`. -/
theorem execMain_visiting (s : MainSubReactor) (iter : ℕ) :
    s.execMain (.visiting iter) =
      match s.server.connections.val iter with
      | some conn => pure { s with main := .writing iter conn }
      | none => throw .dangling :=
  rfl

/-- In `echoAll` the main reactor only reads what it shares. -/
theorem Inv.walk (h : Inv s) {main : MainReactor} (hmain : s.main.admitting = none)
    (hmain' : main.admitting = none) (connected : Finset ℕ) (written : List ℕ) :
    Inv { s with main := main, connected := connected, written := written } where
  ok := h.ok
  notNull := h.notNull
  entered := by
    intro b d hd _ hleaving
    refine h.entered hd ?_ hleaving
    intro heq
    rw [heq] at hmain
    cases hmain
  callback := by
    intro b d hd
    refine iff_of_true (h.polled hmain hd) ?_
    change main.admitting ≠ _
    rw [hmain']
    rintro ⟨⟩
  admitting := by
    intro b hb
    cases hmain'.symm.trans hb
  reactors := h.reactors

theorem Inv.stdin (h : Inv s) (hmain : s.main = .polling) (n : ℤ) : Inv (s.stdin n) := by
  rw [MainSubReactor.stdin]
  split
  · exact h
  · exact h.walk (by rw [hmain]; rfl) rfl _ _

theorem Inv.main (h : Inv s) (hs : s.execMain s.main = pure s') : Inv s' := by
  generalize hmain : s.main = main at hs
  match main, hmain, hs with
  | .polling, _, hs =>
    obtain rfl := Exec.pure_inj.mp hs
    exact h
  | .constructed a, hmain, hs =>
    obtain ⟨c, hc⟩ := h.admitting a (by rw [hmain]; rfl)
    rw [execMain, hc.enter_eq, pure_bind] at hs
    obtain rfl := Exec.pure_inj.mp hs
    exact h.enter hmain hc
  | .entered a, hmain, hs =>
    obtain ⟨c, hc⟩ := h.admitting a (by rw [hmain]; rfl)
    rw [execMain, hc.setCallback_eq, pure_bind] at hs
    obtain rfl := Exec.pure_inj.mp hs
    exact h.setCallback hmain hc
  | .visiting ⊤, hmain, hs =>
    obtain rfl := Exec.pure_inj.mp hs
    exact h.walk (by rw [hmain]; rfl) rfl _ _
  | .visiting (iter : ℕ), hmain, hs =>
    rw [execMain_visiting] at hs
    split at hs
    · obtain rfl := Exec.pure_inj.mp hs
      exact h.walk (by rw [hmain]; rfl) rfl _ _
    · exact absurd hs.symm (Exec.pure_ne_throw _ _)
  | .writing _ none, _, hs => exact absurd hs.symm (Exec.pure_ne_throw _ _)
  | .writing iter (some conn), hmain, hs =>
    rw [execMain] at hs
    obtain ⟨c, -, hs⟩ := Exec.bind_eq_pure.mp hs
    obtain rfl := Exec.pure_inj.mp hs
    exact h.walk (by rw [hmain]; rfl) rfl _ _
  | .advancing iter, hmain, hs =>
    rw [execMain] at hs
    split at hs
    · obtain rfl := Exec.pure_inj.mp hs
      exact h.walk (by rw [hmain]; rfl) rfl _ _
    · exact absurd hs.symm (Exec.pure_ne_throw _ _)

/-! ### The sub-reactors -/

section Reactor

variable {r : ℕ} {this next : SubReactor}

/-- The sub-reactor has not got as far as `delete conn`. -/
def Staying (this : SubReactor) : Prop := ∀ a conn, this.call ≠ some (.erased a conn)

theorem leaving_set {reactors : List SubReactor} {conn : Ptr} (hr : reactors[r]? = some this)
    (hcall : next.call = some (.erased a conn)) : Leaving (reactors.set r next) a := by
  exact ⟨next, List.mem_of_getElem? (WaitSet.getElem?_moved hr next), conn, hcall⟩

/-- Another sub-reactor has moved. -/
theorem leaving_of_set {reactors : List SubReactor} (hr : reactors[r]? = some this)
    (h : Leaving reactors a) :
    Leaving (reactors.set r next) a ∨ ∃ conn, this.call = some (.erased a conn) := by
  obtain ⟨other, hother, conn, hcall⟩ := h
  obtain ⟨i, hi⟩ := List.getElem?_of_mem hother
  rcases eq_or_ne r i with rfl | hne
  · obtain rfl := Option.some.inj (hr.symm.trans hi)
    exact Or.inr ⟨conn, hcall⟩
  · refine Or.inl ⟨other, List.mem_of_getElem? (i := i) ?_, conn, hcall⟩
    rw [List.getElem?_set_ne hne, hi]

theorem Staying.leaving (h : Staying this) {reactors : List SubReactor}
    (hr : reactors[r]? = some this) (hleaving : ¬Leaving (reactors.set r next) a) :
    ¬Leaving reactors a := by
  intro hold
  rcases leaving_of_set hr hold with hnew | ⟨conn, hcall⟩
  · exact hleaving hnew
  · exact h a conn hcall

/-- The sub-reactors after one of them has moved, with the connection `c` that it uses: the
others use none with this descriptor. -/
theorem Inv.reactors_set (h : Inv s) (hr : s.reactors[r]? = some this)
    (ha : a ∈ this.pending) (hc : s.server.Live a c) {server : Server}
    (he : s.server.Elsewhere server c.fd) (hnext : ReactorOk server s.reactors.length r next) :
    ∀ i other, (s.reactors.set r next)[i]? = some other →
      ReactorOk server (s.reactors.set r next).length i other := by
  intro i other hi
  rw [List.length_set]
  rcases WaitSet.getElem?_move hi with ⟨rfl, rfl⟩ | ⟨hne, hi⟩
  · exact hnext
  · refine (h.reactors i other hi).elsewhere he fun b d hd heq hmod => ?_
    obtain ⟨c', hc', hmod'⟩ := (h.reactors r this hr).mine a ha
    obtain rfl := hc'.inj hc
    exact absurd (hmod'.symm.trans (heq ▸ hmod)) hne

/-- A sub-reactor moves, and the connections are not changed. -/
theorem Inv.look (h : Inv s) (hr : s.reactors[r]? = some this) (hstays : Staying this)
    (hnext : ReactorOk s.server s.reactors.length r next) (connected : Finset ℕ) :
    Inv { s with reactors := s.reactors.set r next, connected := connected } where
  ok := h.ok
  notNull := h.notNull
  entered := fun hd hne hleaving => h.entered hd hne (hstays.leaving hr hleaving)
  callback := h.callback
  admitting := h.admitting
  reactors := by
    intro i other hi
    change ReactorOk _ (s.reactors.set r next).length _ _
    rw [List.length_set]
    rcases WaitSet.getElem?_move hi with ⟨rfl, rfl⟩ | ⟨-, hi⟩
    · exact hnext
    · exact h.reactors i other hi

/-- **The entry is erased** by the call of `echo` that has found its connection. -/
theorem Inv.erase (h : Inv s) {events : List Addr}
    (hr : s.reactors[r]? = some { events := events, call := some (.found a (some a)) })
    (hc : s.server.Live a c) (hset : c.callback = true) (connected : Finset ℕ) :
    Inv
      { s with
        server := { s.server with connections := s.server.connections.erase c.fd }
        reactors :=
          s.reactors.set r { events := events, call := some (.erased a (some a)) }
        connected := connected } := by
  have hthis := h.reactors r _ hr
  have hstays : Staying { events := events, call := some (.found a (some a)) } := by
    rintro b conn ⟨⟩
  constructor
  · exact h.ok.erase c.fd
  · exact fun k hk => h.notNull k (Map.of_erase hk).2
  · intro b d hd hne hleaving
    by_cases hba : b = a
    · subst hba
      exact absurd (leaving_set hr rfl) hleaving
    · refine (Map.erase_of_ne _ fun heq => hba (h.ok.fds hd hc heq)).trans ?_
      exact h.entered hd hne (hstays.leaving hr hleaving)
  · exact h.callback
  · exact h.admitting
  · refine h.reactors_set hr (mem_pending_of_call rfl) hc (Server.elsewhere_erase _ _) ?_
    exact
      { nodup := hthis.nodup
        mine := hthis.mine
        call := by
          rintro e ⟨⟩
          exact ⟨rfl, c, hc, hset, Map.erase_self _ _⟩ }

/-- **The connection is deleted** by the call of `echo` that has erased its entry. -/
theorem Inv.delete (h : Inv s) {events : List Addr}
    (hr : s.reactors[r]? = some { events := events, call := some (.erased a (some a)) })
    (hc : s.server.Live a c) (hset : c.callback = true)
    (hval : s.server.connections.val c.fd = none) (connected : Finset ℕ) :
    Inv
      { s with
        server :=
          { s.server with objects := s.server.objects.set a { c with alive := false } }
        reactors := s.reactors.set r { events := events, call := none }
        connected := connected } := by
  have hthis := h.reactors r _ hr
  have hnodup : a ∉ events ∧ events.Nodup := List.nodup_cons.mp hthis.nodup
  -- every other connection is as alive as before
  have hlive : ∀ {b d}, Server.Live
      { s.server with objects := s.server.objects.set a { c with alive := false } } b d ↔
        b ≠ a ∧ s.server.Live b d := by
    intro b d
    rw [Server.live_set hc rfl]
    refine or_iff_left ?_
    rintro ⟨-, rfl, halive⟩
    cases halive
  constructor
  · refine h.ok.set hc rfl (Or.inr ?_)
    rw [hval]
    rintro ⟨⟩
  · exact h.notNull
  · intro b d hd hne hleaving
    obtain ⟨hba, hd⟩ := hlive.mp hd
    -- a connection that was on its way out is still, unless it is the one deleted here
    refine h.entered hd hne fun hold => ?_
    rcases leaving_of_set hr hold with hnew | ⟨conn, hcall⟩
    · exact hleaving hnew
    · cases hcall
      exact hba rfl
  · intro b d hd
    exact h.callback (hlive.mp hd).2
  · intro b hb
    obtain ⟨d, hd⟩ := h.admitting b hb
    refine ⟨d, hlive.mpr ⟨?_, hd⟩⟩
    rintro rfl
    exact (h.callback hc).mp hset hb
  · refine h.reactors_set hr (mem_pending_of_call rfl) hc (Server.elsewhere_set hc rfl) ?_
    constructor
    · exact hnodup.2
    · intro b hb
      obtain ⟨d, hd, hmod⟩ := hthis.mine b (List.mem_cons_of_mem a hb)
      refine ⟨d, hlive.mpr ⟨?_, hd⟩, hmod⟩
      rintro rfl
      exact hnodup.1 hb
    · rintro e ⟨⟩

/-- A sub-reactor that has not got as far as `delete conn` uses no connection on its way
out. -/
theorem Inv.not_leaving (h : Inv s) (hr : s.reactors[r]? = some this) (ha : a ∈ this.pending)
    (hstays : Staying this) : ¬Leaving s.reactors a := by
  rintro ⟨other, hother, conn, hcall⟩
  obtain ⟨i, hi⟩ := List.getElem?_of_mem hother
  obtain ⟨c, hc, hmod⟩ := (h.reactors r this hr).mine a ha
  obtain ⟨d, hd, hmod'⟩ := (h.reactors i other hi).mine a (mem_pending_of_call hcall)
  obtain rfl := hc.inj hd
  obtain rfl := hmod.symm.trans hmod'
  obtain rfl := Option.some.inj (hr.symm.trans hi)
  exact hstays a conn hcall

/-- **A call of `echo` that has read the end of the file** finds its connection admitted,
unless `handleNewConnection` is still busy with it. -/
theorem Inv.admitted_iff (h : Inv s) {events : List Addr}
    (hr : s.reactors[r]? = some { events := events, call := some (.ended a) }) :
    Admitted s.server a ↔ s.main.admitting ≠ some a := by
  have ha : a ∈ SubReactor.pending { events := events, call := some (.ended a) } :=
    List.mem_cons_self
  constructor
  · rintro ⟨c, hc, hset, -⟩
    exact (h.callback hc).mp hset
  · intro hmain
    obtain ⟨c, hc, -⟩ := (h.reactors r _ hr).mine a ha
    refine ⟨c, hc, (h.callback hc).mpr hmain, h.entered hc ?_ ?_⟩
    · intro heq
      exact hmain (by rw [heq]; rfl)
    · exact h.not_leaving hr ha (by rintro b conn ⟨⟩)

theorem ReactorOk.sublist {server : Server} {size : ℕ} (h : ReactorOk server size r this)
    (hsub : next.pending.Sublist this.pending) (hcall : ∀ e, next.call = some e → CallOk server e) :
    ReactorOk server size r next where
  nodup := h.nodup.sublist hsub
  mine := fun a ha => h.mine a (hsub.subset ha)
  call := hcall

/-- **What a step of a call of `echo` does** to the connections: nothing, or it erases the
entry of its connection, or it deletes its connection. -/
theorem Inv.echo_cases (h : Inv s) {events : List Addr} {call : Echo} {n : ReadResult}
    (hr : s.reactors[r]? = some { events := events, call := some call }) {after : Option Echo}
    {server : Server} (hecho : s.server.echo call n = pure (after, server)) :
    (server = s.server ∧ Staying { events := events, call := some call } ∧
      ReactorOk s.server s.reactors.length r { events := events, call := after }) ∨
    (∃ a c, call = .found a (some a) ∧ after = some (.erased a (some a)) ∧ s.server.Live a c ∧
      c.callback = true ∧
      server = { s.server with connections := s.server.connections.erase c.fd }) ∨
    ∃ a c, call = .erased a (some a) ∧ after = none ∧ s.server.Live a c ∧ c.callback = true ∧
      s.server.connections.val c.fd = none ∧
      server = { s.server with objects := s.server.objects.set a { c with alive := false } } := by
  have hthis := h.reactors r _ hr
  obtain ⟨c, hc, -⟩ := hthis.mine _ (mem_pending_of_call rfl)
  cases call with
  | reading a =>
    obtain ⟨after', hreading, hafter⟩ := hc.echo_reading n
    obtain ⟨rfl, rfl⟩ := Prod.mk.inj (Exec.pure_unique hreading hecho)
    refine Or.inl ⟨rfl, by rintro b conn ⟨⟩, hthis.sublist ?_ fun e he => ?_⟩
    · cases after' with
      | none => exact List.sublist_cons_self a events
      | some e => rcases hafter e rfl with rfl | rfl <;> exact List.Sublist.refl _
    · rcases hafter e he with rfl | rfl <;> trivial
  -- an empty callback would be called here: the connection is admitted by then
  | ended a =>
    change s.server.Live a c at hc
    rcases hset : c.callback with _ | _
    · exact absurd (hecho.symm.trans (hc.echo_ended_unset hset n)) (Exec.pure_ne_throw _ _)
    have hadmitted : Admitted s.server a :=
      (h.admitted_iff hr).mpr ((h.callback hc).mp hset)
    obtain ⟨rfl, rfl⟩ := Prod.mk.inj (Exec.pure_unique (hc.echo_ended hset n) hecho)
    refine Or.inl ⟨rfl, by rintro b conn ⟨⟩, ?_⟩
    refine hthis.sublist (List.Sublist.refl (a :: events)) ?_
    rintro e ⟨⟩
    exact hadmitted
  -- its entry is still there, as no other call erases it
  | called a =>
    change s.server.Live a c at hc
    obtain ⟨d, hd, hset, hval⟩ := hthis.call _ rfl
    obtain rfl := hd.inj hc
    obtain ⟨rfl, rfl⟩ := Prod.mk.inj (Exec.pure_unique (hc.echo_called hval n) hecho)
    refine Or.inl ⟨rfl, by rintro b conn ⟨⟩, ?_⟩
    refine hthis.sublist (List.Sublist.refl (a :: events)) ?_
    rintro e ⟨⟩
    exact ⟨rfl, d, hc, hset, hval⟩
  | found a conn =>
    obtain ⟨rfl, d, hd, hset, -⟩ := hthis.call _ rfl
    obtain rfl := hd.inj hc
    obtain ⟨rfl, rfl⟩ := Prod.mk.inj (Exec.pure_unique (hc.echo_found (some a) n) hecho)
    exact Or.inr (Or.inl ⟨a, d, rfl, rfl, hc, hset, rfl⟩)
  | erased a conn =>
    obtain ⟨rfl, d, hd, hset, hval⟩ := hthis.call _ rfl
    obtain rfl := hd.inj hc
    obtain ⟨rfl, rfl⟩ := Prod.mk.inj (Exec.pure_unique (hc.echo_erased a n) hecho)
    exact Or.inr (Or.inr ⟨a, d, rfl, rfl, hc, hset, hval, rfl⟩)

/-- The next step of a call of `echo`. -/
theorem Inv.echo (h : Inv s) {events : List Addr} {call : Echo} {n : ReadResult}
    (hr : s.reactors[r]? = some { events := events, call := some call })
    (hs : s.execReactor r n { events := events, call := some call } = pure s') : Inv s' := by
  obtain ⟨⟨after, server⟩, hecho, hs⟩ := Exec.bind_eq_pure.mp hs
  obtain rfl := Exec.pure_inj.mp hs
  rcases h.echo_cases hr hecho with
    ⟨rfl, hstays, hok⟩ | ⟨a, c, rfl, rfl, hc, hset, rfl⟩ | ⟨a, c, rfl, rfl, hc, hset, hval, rfl⟩
  · exact h.look hr hstays hok _
  · exact h.erase hr hc hset _
  · exact h.delete hr hc hset hval _

theorem Inv.reactor (h : Inv s) {n : ReadResult} (hr : s.reactors[r]? = some this)
    (hs : s.execReactor r n this = pure s') : Inv s' := by
  obtain ⟨events, call⟩ := this
  match events, call, hr, hs with
  | events, some call, hr, hs => exact h.echo hr hs
  | [], none, _, hs => exact Exec.pure_inj.mp hs ▸ h
  | a :: events, none, hr, hs =>
    obtain ⟨c, -, hs⟩ := Exec.bind_eq_pure.mp hs
    obtain rfl := Exec.pure_inj.mp hs
    refine h.look hr (by rintro b conn ⟨⟩) ?_ s.connected
    refine (h.reactors r _ hr).sublist (List.Sublist.refl (a :: events)) ?_
    rintro e ⟨⟩
    trivial

/-- A sub-reactor is given active channels. -/
theorem Inv.poll (h : Inv s) {events : List Addr}
    (hr : s.reactors[r]? = some { events := [], call := none }) (hnodup : events.Nodup)
    (hevents : ∀ a ∈ events, s.registered r a = true) : Inv (s.poll r events) := by
  refine h.look hr (by rintro b conn ⟨⟩) ?_ s.connected
  constructor
  · exact hnodup
  · intro a ha
    obtain ⟨c, hc, hreg⟩ := (Option.any_eq_true _ _).mp (hevents a ha)
    obtain ⟨halive, hmod⟩ := Bool.and_eq_true _ _ ▸ hreg
    exact ⟨c, ⟨hc, halive⟩, beq_iff_eq.mp hmod⟩
  · rintro e ⟨⟩

end Reactor

/-! ### Every run -/

/-- **Every step keeps the invariant.** -/
theorem Inv.step (h : Inv s) {act : Act} (hall : s.Allowed act) (hs : s.exec act = pure s') :
    Inv s' := by
  cases act with
  | accept fd => exact h.accept hall.1 hall.2 hs
  | stdin n => exact Exec.pure_inj.mp hs ▸ h.stdin hall n
  | main => exact h.main hs
  | poll r events => exact Exec.pure_inj.mp hs ▸ h.poll hall.1 hall.2.1 hall.2.2
  | reactor r n =>
    rw [exec] at hs
    split at hs
    · rename_i this hr
      exact h.reactor hr hs
    · exact Exec.pure_inj.mp hs ▸ h

theorem reachable_inv {size : ℕ} (h : (program size).Reachable s) : Inv s := by
  refine h.invariant ?_ fun s a s' _ hs hstep => hs.step hstep.1 hstep.2
  rintro s rfl
  exact inv_create size

/-- **The callback finds everything in place** exactly if `handleNewConnection` has returned:
in every state of every run, for every sub-reactor that is about to call it. The main reactor
itself never uses there a connection that has been deleted. -/
theorem reachable_admitted_iff {size : ℕ} (h : (program size).Reachable s) :
    (∀ r a, s.Calling r a → (Admitted s.server a ↔ s.main.admitting ≠ some a)) ∧
      ∀ a, s.main.admitting = some a → ∃ c, s.server.Live a c := by
  have hinv := reachable_inv h
  constructor
  · rintro r a ⟨events, hr⟩
    exact hinv.admitted_iff hr
  · exact hinv.admitting

theorem reachable_admitted_iff_two :
    ∃ s, (program 2).Reachable s ∧ s.Calling 0 1 ∧ Admitted s.server 1 := by
  have hinit : (program 2).Reachable (create 2) := .init rfl
  have h := hinit.foldlM Program.tryStep_step
    (l := [.accept 5, .main, .main, .accept 6, .main, .main, .poll 0 [1], .reactor 0 .data,
      .reactor 0 .data, .reactor 0 .eof]) rfl
  exact ⟨_, h, ⟨[], rfl⟩, ((reachable_admitted_iff h).1 0 1 ⟨[], rfl⟩).mpr (by rintro ⟨⟩)⟩

/-- A client is gone before its connection is in the map. -/
theorem not_admitted :
    ¬∀ size s, (program size).Reachable s →
      (∀ r a, s.Calling r a → Admitted s.server a) ∧
        ∀ a, s.main.admitting = some a → ∃ c, s.server.Live a c := by
  intro h
  have hinit : (program 1).Reachable (create 1) := .init rfl
  have hearly := hinit.foldlM Program.tryStep_step
    (l := [.accept 5, .poll 0 [0], .reactor 0 .data, .reactor 0 .eof]) rfl
  obtain ⟨c, hc, hset, -⟩ := (h 1 _ hearly).1 0 0 ⟨[], rfl⟩
  obtain rfl := Option.some.inj hc.1
  cases hset

end MainSubReactor

end Candcpp
