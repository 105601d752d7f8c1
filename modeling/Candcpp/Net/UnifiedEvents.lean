import Candcpp.Concurrent.EdgeQueue

/-!
# Signals as events

`linux_server_programming/chapter10_signal/unified_event_source.cpp`: a handler writes the number of
its signal, one byte, into a pair of sockets, and the event loop reads it there, among its other
events. So a signal that arrives at any time is looked at by the loop, at a place of the loop's own.

The handler may interrupt every statement of the loop. What it writes is lost if there is no room.
The loop is told of bytes by an edge, and then reads 1024 of them at most; bytes that are left wait
for the next signal. **A signal that ends the program is never slept over exactly if the sockets
have room for no more than 1024 bytes** (`Candcpp.UnifiedEvents.awake_iff`).

For a client one connection is accepted for each event, so that a client may be left in the queue for
ever, as with the other servers of this kind (`Candcpp.UnifiedEvents.clients_left`).
-/

namespace Candcpp

/-- An event that `epoll_wait` reports. -/
inductive SourceEvent where
  /-- On `listenfd`. -/
  | listen
  /-- On `pipefd[0]`, to be read from. -/
  | pipe
  /-- On a connection, or of another kind. -/
  | other
  deriving DecidableEq

/-- Where the loop is. -/
inductive SourcePhase where
  /-- `while (!stop_server)`. -/
  | testing
  | waiting
  /-- These events are to be handled. -/
  | handling (events : List SourceEvent)
  /-- `accept` has returned, and these are to be handled after that. -/
  | accepted (events : List SourceEvent)
  | over
  deriving DecidableEq

structure UnifiedEvents where
  /-- The clients that have not been accepted. -/
  clients : EdgeQueue
  /-- How many connections have been accepted. -/
  connections : ℕ
  /-- The bytes between `pipefd[1]` and `pipefd[0]`. -/
  pipe : List UInt8
  /-- There are bytes that have not been reported. -/
  edge : Bool
  stopServer : Bool
  phase : SourcePhase
  /-- The signals of which the number has been written, in order. -/
  sent : List UInt8
  /-- The numbers that have been read. -/
  received : List UInt8

namespace UnifiedEvents

/-! ### The code -/

def sigHup : UInt8 := 1

def sigInt : UInt8 := 2

def sigTerm : UInt8 := 15

def sigChld : UInt8 := 17

/-- The size of the array `signals`. -/
def signalsSize : ℕ := 1024

/-- What the `switch` makes of a number that has been read: whether the server is to stop. -/
def ends (sig : UInt8) : Bool := sig = sigTerm ∨ sig = sigInt

/-- The program, when it comes to its loop. -/
def start : UnifiedEvents where
  clients := .empty
  connections := 0
  pipe := []
  edge := false
  stopServer := false
  phase := .testing
  sent := []
  received := []

variable (s : UnifiedEvents)

/-- `sig_handler(sig)`, where the sockets have room for `cap` bytes. When the loop is over they may
have been closed. -/
def sigHandler (cap : ℕ) (sig : UInt8) : UnifiedEvents :=
  if s.phase ≠ .over ∧ s.pipe.length < cap then
    { s with pipe := s.pipe ++ [sig], edge := true, sent := s.sent ++ [sig] }
  else s

/-- `recv(pipefd[0], signals, sizeof(signals), 0)`, and the loop over the bytes. -/
def readSignals : UnifiedEvents :=
  { s with
    pipe := s.pipe.drop signalsSize
    received := s.received ++ s.pipe.take signalsSize
    stopServer := s.stopServer || (s.pipe.take signalsSize).any ends }

/-- What happens next. -/
inductive Act where
  /-- The handler of a signal is executed. -/
  | signal (sig : UInt8)
  /-- A client connects. -/
  | connect
  /-- The condition of the loop is tested. -/
  | test
  /-- `epoll_wait` returns these events, or none where it is interrupted. -/
  | wait (events : List SourceEvent)
  /-- `epoll_wait` fails. -/
  | fail
  /-- `accept` returns. -/
  | accept
  /-- The next event is handled, or what comes after `accept`, or the next round begins. -/
  | handle
  deriving DecidableEq

/-- What a step does to the queue of clients. -/
def effect : Act → EdgeQueue.Effect
  | .connect => .arrive
  | .wait events => if .listen ∈ events then .report else .none
  | .accept => .take
  | .handle =>
    match s.phase with
    | .accepted _ => .finish
    | _ => .none
  | _ => .none

/-- **One step**, if it is possible. The handler is that of four signals, and what is reported once
is reported again only when something has arrived. -/
def step (cap : ℕ) : Act → Option UnifiedEvents
  | .signal sig =>
    if sig ∈ [sigHup, sigChld, sigTerm, sigInt] then some (s.sigHandler cap sig) else none
  | .connect => some { s with clients := s.clients.act .arrive }
  | .test =>
    if s.phase = .testing then
      some { s with phase := if s.stopServer then .over else .waiting }
    else none
  | .wait events =>
    if s.phase = .waiting ∧ events.count .listen ≤ 1 ∧ events.count .pipe ≤ 1 ∧
        (.listen ∈ events → s.clients.edge = true) ∧ (.pipe ∈ events → s.edge = true) then
      some
        { s with
          clients := s.clients.act (s.effect (.wait events))
          edge := if .pipe ∈ events then false else s.edge
          phase := .handling events }
    else none
  | .fail => if s.phase = .waiting then some { s with phase := .over } else none
  | .accept =>
    match s.phase with
    | .handling (.listen :: events) =>
      some
        { s with
          clients := s.clients.act .take
          connections := if 0 < s.clients.pending then s.connections + 1 else s.connections
          phase := .accepted events }
    | _ => none
  | .handle =>
    match s.phase with
    | .accepted events => some { s with phase := .handling events }
    | .handling (.pipe :: events) => some { s.readSignals with phase := .handling events }
    | .handling (.other :: events) => some { s with phase := .handling events }
    | .handling [] => some { s with phase := .testing }
    | _ => none

/-- **The program**: the loop, the signals and the clients, in any order. -/
def lts (cap : ℕ) : Lts UnifiedEvents Act where
  init := fun s => s = start
  step := fun s a s' => s.step cap a = some s'

/-! ### What a step does -/

variable {s} {s' : UnifiedEvents} {cap : ℕ} {a : Act}

/-- **The steps.** -/
theorem step_cases (h : s.step cap a = some s') :
    (∃ sig, a = .signal sig ∧ s' = s.sigHandler cap sig) ∨
    (a = .connect ∧ s' = { s with clients := s.clients.act .arrive }) ∨
    (a = .test ∧ s.phase = .testing ∧ s' = { s with
      phase := if s.stopServer then .over else .waiting }) ∨
    (∃ events, a = .wait events ∧ s.phase = .waiting ∧ events.count .listen ≤ 1 ∧
      (.listen ∈ events → s.clients.edge = true) ∧ s' = { s with
        clients := s.clients.act (s.effect (.wait events))
        edge := if .pipe ∈ events then false else s.edge
        phase := .handling events }) ∨
    (a = .fail ∧ s.phase = .waiting ∧ s' = { s with phase := .over }) ∨
    (∃ events, a = .accept ∧ s.phase = .handling (.listen :: events) ∧ s' = { s with
      clients := s.clients.act .take
      connections := if 0 < s.clients.pending then s.connections + 1 else s.connections
      phase := .accepted events }) ∨
    (∃ events, a = .handle ∧ s.phase = .accepted events ∧
      s' = { s with phase := .handling events }) ∨
    (∃ events, a = .handle ∧ s.phase = .handling (.pipe :: events) ∧
      s' = { s.readSignals with phase := .handling events }) ∨
    (∃ events, a = .handle ∧ s.phase = .handling (.other :: events) ∧
      s' = { s with phase := .handling events }) ∨
    (a = .handle ∧ s.phase = .handling [] ∧ s' = { s with phase := .testing }) := by
  obtain ⟨clients, connections, pipe, edge, stop, phase, sent, received⟩ := s
  cases a with
  | signal sig =>
    rw [step] at h
    split_ifs at h
    exact .inl ⟨sig, rfl, (Option.some.inj h).symm⟩
  | connect => exact .inr (.inl ⟨rfl, (Option.some.inj h).symm⟩)
  | test =>
    cases phase with
    | testing => exact .inr (.inr (.inl ⟨rfl, rfl, (Option.some.inj h).symm⟩))
    | _ => cases h
  | wait events =>
    cases phase with
    | waiting =>
      rw [step] at h
      refine .inr (.inr (.inr (.inl ⟨events, rfl, rfl, ?_⟩)))
      obtain ⟨⟨-, hlisten, -, hedge, -⟩, h⟩ := Option.ite_none_right_eq_some.mp h
      exact ⟨hlisten, hedge, (Option.some.inj h).symm⟩
    | _ => cases h
  | fail =>
    cases phase with
    | waiting => exact .inr (.inr (.inr (.inr (.inl ⟨rfl, rfl, (Option.some.inj h).symm⟩))))
    | _ => cases h
  | accept =>
    cases phase with
    | handling events =>
      cases events with
      | nil => cases h
      | cons ev events =>
        cases ev with
        | listen =>
          exact .inr (.inr (.inr (.inr (.inr (.inl ⟨events, rfl, rfl, (Option.some.inj h).symm⟩)))))
        | pipe => cases h
        | other => cases h
    | _ => cases h
  | handle =>
    refine .inr (.inr (.inr (.inr (.inr (.inr ?_)))))
    cases phase with
    | accepted events => exact .inl ⟨events, rfl, rfl, (Option.some.inj h).symm⟩
    | handling events =>
      cases events with
      | nil => exact .inr (.inr (.inr ⟨rfl, rfl, (Option.some.inj h).symm⟩))
      | cons ev events =>
        cases ev with
        | listen => cases h
        | pipe => exact .inr (.inl ⟨events, rfl, rfl, (Option.some.inj h).symm⟩)
        | other => exact .inr (.inr (.inl ⟨events, rfl, rfl, (Option.some.inj h).symm⟩))
    | _ => cases h

/-! ### The signals -/

/-- **What holds in every state.** -/
structure Inv (cap : ℕ) (s : UnifiedEvents) : Prop where
  order : s.sent = s.received ++ s.pipe
  stop : s.stopServer = s.received.any ends
  room : s.pipe.length ≤ cap
  waits : s.phase = .waiting → s.stopServer = false

theorem inv_start (cap : ℕ) : Inv cap start where
  order := rfl
  stop := rfl
  room := Nat.zero_le cap
  waits := fun _ => rfl

theorem Inv.sigHandler (h : Inv cap s) (sig : UInt8) : Inv cap (s.sigHandler cap sig) := by
  rw [UnifiedEvents.sigHandler]
  split_ifs with hroom
  · refine { h with order := ?_, room := ?_ }
    · show s.sent ++ [sig] = s.received ++ (s.pipe ++ [sig])
      rw [h.order, List.append_assoc]
    · show (s.pipe ++ [sig]).length ≤ cap
      rw [List.length_append]
      exact hroom.2
  · exact h

theorem Inv.readSignals (h : Inv cap s) {phase : SourcePhase} (hp : phase ≠ .waiting) :
    Inv cap { s.readSignals with phase := phase } := by
  refine { order := ?_, stop := ?_, room := ?_, waits := fun hw => absurd hw hp }
  · show s.sent = s.received ++ s.pipe.take signalsSize ++ s.pipe.drop signalsSize
    rw [List.append_assoc, List.take_append_drop, h.order]
  · show (s.stopServer || _) = (s.received ++ _).any ends
    rw [List.any_append, h.stop]
  · show (s.pipe.drop signalsSize).length ≤ cap
    rw [List.length_drop]
    exact (Nat.sub_le _ _).trans h.room

/-- A step keeps what holds. -/
theorem Inv.step (h : Inv cap s) (hs : s.step cap a = some s') : Inv cap s' := by
  rcases step_cases hs with ⟨sig, -, rfl⟩ | ⟨-, rfl⟩ | ⟨-, -, rfl⟩ | ⟨evs, -, -, -, -, rfl⟩ |
    ⟨-, -, rfl⟩ | ⟨evs, -, -, rfl⟩ | ⟨evs, -, -, rfl⟩ | ⟨evs, -, -, rfl⟩ | ⟨evs, -, -, rfl⟩ |
    ⟨-, -, rfl⟩
  · exact h.sigHandler sig
  · exact { h with }
  · refine { h with waits := fun hw => ?_ }
    have hw : (if s.stopServer then SourcePhase.over else .waiting) = .waiting := hw
    split_ifs at hw with hstop
    exact Bool.eq_false_iff.mpr hstop
  · exact { h with waits := nofun }
  · exact { h with waits := nofun }
  · exact { h with waits := nofun }
  · exact { h with waits := nofun }
  · exact h.readSignals nofun
  · exact { h with waits := nofun }
  · exact { h with waits := nofun }

theorem inv_of_reachable (h : (lts cap).Reachable s) : Inv cap s :=
  h.invariant (fun _ hs => hs ▸ inv_start cap) fun _ _ _ _ hinv hs => hinv.step hs

/-- **The signals are looked at in their order**, each of them once: what has been written has been
read, or is between the sockets; and the server is told to stop exactly if one that ends it has
been read. -/
theorem sent_eq (h : (lts cap).Reachable s) : s.sent = s.received ++ s.pipe ∧
    (s.stopServer = true ↔ sigTerm ∈ s.received ∨ sigInt ∈ s.received) := by
  have hinv := inv_of_reachable h
  refine ⟨hinv.order, ?_⟩
  rw [hinv.stop, List.any_eq_true]
  constructor
  · rintro ⟨sig, hmem, hends⟩
    obtain rfl | rfl := of_decide_eq_true hends
    · exact .inl hmem
    · exact .inr hmem
  · rintro (hmem | hmem)
    · exact ⟨sigTerm, hmem, rfl⟩
    · exact ⟨sigInt, hmem, rfl⟩

/-- The events that are to be handled. -/
def events (s : UnifiedEvents) : List SourceEvent :=
  match s.phase with
  | .handling events => events
  | .accepted events => events
  | _ => []

/-- The loop knows of the bytes that wait: an event is to be handled, or to be reported. -/
def Told (s : UnifiedEvents) : Prop := s.pipe = [] ∨ s.edge = true ∨ .pipe ∈ s.events

theorem Told.of_events_eq_nil (h : s.Told) (hevents : s.events = []) :
    s.pipe = [] ∨ s.edge = true := by
  rw [Told, hevents] at h
  exact h.imp_right fun h => h.resolve_right List.not_mem_nil

theorem Told.of_cons (h : s.Told) {ev : SourceEvent} {events : List SourceEvent}
    (hevents : s.events = ev :: events) (hev : ev ≠ .pipe) :
    s.pipe = [] ∨ s.edge = true ∨ .pipe ∈ events := by
  rw [Told, hevents] at h
  exact h.imp_right fun h => h.imp_right fun h => List.mem_of_ne_of_mem hev.symm h

/-- **Where the array has room for all bytes, the loop knows of those that wait.** -/
theorem told_of_reachable (hcap : cap ≤ signalsSize) (h : (lts cap).Reachable s) : s.Told := by
  refine h.invariant ?_ ?_
  · rintro s rfl
    exact .inl rfl
  · rintro s a s' hreach htold hs
    have hroom := (inv_of_reachable hreach).room
    rcases step_cases hs with ⟨sig, -, rfl⟩ | ⟨-, rfl⟩ | ⟨-, hp, rfl⟩ | ⟨evs, -, hp, -, -, rfl⟩ |
      ⟨-, hp, rfl⟩ | ⟨evs, -, hp, rfl⟩ | ⟨evs, -, hp, rfl⟩ | ⟨evs, -, hp, rfl⟩ | ⟨evs, -, hp, rfl⟩ |
      ⟨-, hp, rfl⟩
    · rw [sigHandler]
      split_ifs
      · exact .inr (.inl rfl)
      · exact htold
    · exact htold
    · exact (htold.of_events_eq_nil (by rw [events, hp])).imp_right .inl
    · obtain hnil | hedge := htold.of_events_eq_nil (by rw [events, hp])
      · exact .inl hnil
      · by_cases hmem : .pipe ∈ evs
        · exact .inr (.inr hmem)
        · exact .inr (.inl ((if_neg hmem).trans hedge))
    · exact (htold.of_events_eq_nil (by rw [events, hp])).imp_right .inl
    · have hevents : s.events = .listen :: evs := by rw [events, hp]
      exact htold.of_cons hevents nofun
    · rw [Told, events, hp] at htold
      exact htold
    · -- all bytes are read at once
      exact .inl (List.drop_eq_nil_of_le (hroom.trans hcap))
    · have hevents : s.events = .other :: evs := by rw [events, hp]
      exact htold.of_cons hevents nofun
    · exact (htold.of_events_eq_nil (by rw [events, hp])).imp_right .inl

/-- So many signals of a child arrive before the loop gets to run. -/
def children (n : ℕ) : UnifiedEvents :=
  { start with
    pipe := List.replicate n sigChld, edge := decide (0 < n), sent := List.replicate n sigChld }

theorem reachable_children {n : ℕ} (h : n ≤ cap) : (lts cap).Reachable (children n) := by
  induction n with
  | zero => exact .init rfl
  | succ n ih =>
    refine (ih (Nat.le_of_succ_le h)).step (a := .signal sigChld) ?_
    show some ((children n).sigHandler cap sigChld) = _
    have hroom : (children n).phase ≠ .over ∧ (children n).pipe.length < cap :=
      ⟨nofun, (List.length_replicate).trans_lt h⟩
    rw [sigHandler, if_pos hroom]
    refine congrArg some ?_
    rw [children, children, List.replicate_succ', decide_eq_true n.succ_pos]

/-- A signal that ends the program, behind as many bytes as the array has room for. -/
def queued : UnifiedEvents :=
  { start with
    pipe := List.replicate signalsSize sigChld ++ [sigTerm], edge := true
    sent := List.replicate signalsSize sigChld ++ [sigTerm] }

/-- What is left when the event has been handled. -/
def overslept (phase : SourcePhase) : UnifiedEvents :=
  { queued with
    pipe := [sigTerm], edge := false, phase := phase
    received := List.replicate signalsSize sigChld }

theorem readSignals_queued (phase phase' : SourcePhase) :
    { readSignals { queued with edge := false, phase := phase } with phase := phase' } =
      overslept phase' := by
  have hlen : (List.replicate signalsSize sigChld).length = signalsSize := List.length_replicate
  have htake : queued.pipe.take signalsSize = List.replicate signalsSize sigChld :=
    List.take_left' hlen
  have hdrop : queued.pipe.drop signalsSize = [sigTerm] := List.drop_left' hlen
  have hany : (List.replicate signalsSize sigChld).any ends = false :=
    List.any_eq_false.mpr fun sig hsig => by
      rw [List.eq_of_mem_replicate hsig]
      decide
  rw [readSignals, overslept]
  dsimp only
  rw [htake, hdrop, hany]
  rfl

theorem reachable_overslept (h : signalsSize < cap) :
    (lts cap).Reachable (overslept .waiting) := by
  have hsent : (lts cap).step (children signalsSize) (.signal sigTerm) queued := by
    show some ((children signalsSize).sigHandler cap sigTerm) = some queued
    have hroom : (children signalsSize).phase ≠ .over ∧
        (children signalsSize).pipe.length < cap :=
      ⟨nofun, List.length_replicate.trans_lt h⟩
    rw [sigHandler, if_pos hroom]
    rfl
  have hread : (lts cap).step { queued with edge := false, phase := .handling [.pipe] } .handle
      (overslept (.handling [])) :=
    congrArg some (readSignals_queued (.handling [.pipe]) (.handling []))
  have hwait : (lts cap).Reachable { queued with phase := .waiting } :=
    ((reachable_children h.le).step hsent).step (a := .test) rfl
  have hreport : (lts cap).Reachable { queued with edge := false, phase := .handling [.pipe] } :=
    hwait.step (a := .wait [.pipe]) rfl
  have htest : (lts cap).Reachable (overslept .testing) :=
    (hreport.step hread).step (a := .handle) rfl
  exact htest.step (a := .test) rfl

/-- A signal that has been written, and not read. -/
theorem sent_eq_overslept : (overslept .waiting).sent =
      (overslept .waiting).received ++ (overslept .waiting).pipe ∧
    ((overslept .waiting).stopServer = true ↔
      sigTerm ∈ (overslept .waiting).received ∨ sigInt ∈ (overslept .waiting).received) :=
  sent_eq (reachable_overslept (show signalsSize < 1025 by decide))

/-- **A signal that ends the program is never slept over exactly if the sockets have room for no
more bytes than the array.** -/
theorem awake_iff (cap : ℕ) : (∀ s, (lts cap).Reachable s → s.phase = .waiting → s.edge = false →
    sigTerm ∉ s.sent ∧ sigInt ∉ s.sent) ↔ cap ≤ signalsSize := by
  constructor
  · intro h
    by_contra hcap
    refine (h (overslept .waiting) (reachable_overslept (Nat.lt_of_not_le hcap)) rfl rfl).1 ?_
    exact List.mem_append_right _ (List.mem_singleton.mpr rfl)
  · intro hcap s hs hwait hedge
    have hinv := inv_of_reachable hs
    have hnil : s.pipe = [] := by
      refine ((told_of_reachable hcap hs).of_events_eq_nil (by rw [events, hwait])).resolve_right ?_
      rw [hedge]
      exact Bool.false_ne_true
    have hstop := hinv.stop.symm.trans (hinv.waits hwait)
    have hsent : s.sent = s.received := by
      rw [hinv.order, hnil, List.append_nil]
    have hnone : ∀ sig ∈ s.sent, ends sig = false := fun sig hmem =>
      Bool.eq_false_iff.mpr (List.any_eq_false.mp hstop sig (hsent ▸ hmem))
    exact ⟨fun hmem => absurd (hnone _ hmem) (by decide), fun hmem => absurd (hnone _ hmem) (by decide)⟩

/-! ### The clients -/

/-- `accept` has returned, and `addfd` has not. -/
def adding (s : UnifiedEvents) : ℕ :=
  match s.phase with
  | .accepted _ => 1
  | _ => 0

/-- What a step does to the queue of clients, and to the events on it. -/
theorem step_counts (h : s.step cap a = some s') : s'.clients = s.clients.act (s.effect a) ∧
    s'.events.count .listen + (if s.effect a = .take then 1 else 0) =
      s.events.count .listen + (if s.effect a = .report then 1 else 0) ∧
    s'.events.count .listen + s'.adding + (if s.effect a = .finish then 1 else 0) =
      s.events.count .listen + s.adding + (if s.effect a = .report then 1 else 0) := by
  have hother : ∀ (ev : SourceEvent) (evs : List SourceEvent), ev ≠ .listen →
      evs.count .listen = (ev :: evs).count .listen :=
    fun _ _ hne => (List.count_cons_of_ne hne).symm
  rcases step_cases h with ⟨sig, rfl, rfl⟩ | ⟨rfl, rfl⟩ | ⟨rfl, hp, rfl⟩ |
    ⟨evs, rfl, hp, hone, -, rfl⟩ | ⟨rfl, hp, rfl⟩ | ⟨evs, rfl, hp, rfl⟩ | ⟨evs, rfl, hp, rfl⟩ |
    ⟨evs, rfl, hp, rfl⟩ | ⟨evs, rfl, hp, rfl⟩ | ⟨rfl, hp, rfl⟩
  · obtain ⟨hc, hp⟩ : (s.sigHandler cap sig).clients = s.clients ∧
        (s.sigHandler cap sig).phase = s.phase := by
      rw [sigHandler]
      split_ifs
      · exact ⟨rfl, rfl⟩
      · exact ⟨rfl, rfl⟩
    refine ⟨hc, ?_, ?_⟩
    · simp only [events, effect, hp]
      rfl
    · simp only [events, adding, effect, hp]
      rfl
  · exact ⟨rfl, rfl, rfl⟩
  · refine ⟨rfl, ?_, ?_⟩
    · simp only [events, effect, hp]
      split_ifs <;> rfl
    · simp only [events, adding, effect, hp]
      split_ifs <;> rfl
  · have hcount : evs.count .listen = if .listen ∈ evs then 1 else 0 := by
      split_ifs with hmem
      · exact Nat.le_antisymm hone (List.count_pos_iff.mpr hmem)
      · exact List.count_eq_zero.mpr hmem
    refine ⟨rfl, ?_, ?_⟩
    · by_cases hmem : .listen ∈ evs
      · simp [events, effect, hp, hcount, hmem]
      · simp [events, effect, hp, hcount, hmem]
    · by_cases hmem : .listen ∈ evs
      · simp [events, adding, effect, hp, hcount, hmem]
      · simp [events, adding, effect, hp, hcount, hmem]
  · refine ⟨rfl, ?_, ?_⟩
    · simp only [events, effect, hp]
      rfl
    · simp only [events, adding, effect, hp]
      rfl
  · refine ⟨rfl, ?_, ?_⟩
    · simp only [events, effect, hp, List.count_cons_self]
      rfl
    · simp only [events, adding, effect, hp, List.count_cons_self]
      rfl
  · refine ⟨?_, ?_, ?_⟩
    · simp only [effect, hp]
      rfl
    · simp only [events, effect, hp]
      rfl
    · simp only [events, adding, effect, hp]
      rfl
  · refine ⟨?_, ?_, ?_⟩
    · simp only [effect, hp]
      rfl
    · simp only [events, effect, hp]
      exact hother .pipe evs nofun
    · simp only [events, adding, effect, hp]
      exact hother .pipe evs nofun
  · refine ⟨?_, ?_, ?_⟩
    · simp only [effect, hp]
      rfl
    · simp only [events, effect, hp]
      exact hother .other evs nofun
    · simp only [events, adding, effect, hp]
      exact hother .other evs nofun
  · refine ⟨?_, ?_, ?_⟩
    · simp only [effect, hp]
      rfl
    · simp only [events, effect, hp]
      rfl
    · simp only [events, adding, effect, hp]
      rfl

theorem edge_of_report (h : s.step cap a = some s') (he : s.effect a = .report) :
    s.clients.edge = true := by
  rcases step_cases h with ⟨sig, rfl, -⟩ | ⟨rfl, -⟩ | ⟨rfl, -⟩ | ⟨evs, rfl, -, -, hedge, -⟩ |
    ⟨rfl, -⟩ | ⟨evs, rfl, -⟩ | ⟨evs, rfl, hp, -⟩ | ⟨evs, rfl, hp, -⟩ | ⟨evs, rfl, hp, -⟩ |
    ⟨rfl, hp, -⟩
  case inr.inr.inr.inl =>
    refine hedge ?_
    by_contra hmem
    rw [effect, if_neg hmem] at he
    cases he
  all_goals first | cases he | (rw [effect, hp] at he; cases he)

/-- **The loop as a server** of the queue of clients. -/
def server (cap : ℕ) : EdgeQueue.Server UnifiedEvents Act where
  lts := lts cap
  queue := UnifiedEvents.clients
  busy := fun s => s.events.count .listen + s.adding
  taking := fun s => s.events.count .listen
  effect := effect
  init_eq := by
    rintro s rfl
    exact ⟨rfl, rfl⟩
  taking_le := fun s => Nat.le_add_right _ _
  queue_eq := fun _ _ _ h => (step_counts h).1
  edge_eq := fun _ _ _ h he => edge_of_report h he
  taking_eq := fun _ _ _ h => (step_counts h).2.1
  busy_eq := fun _ _ _ h => (step_counts h).2.2

/-- **A client that connects before an earlier one has been reported** leaves one of them in the
queue for ever. -/
theorem clients_left (cap : ℕ) {s₀ s t u : UnifiedEvents} {l l' : List (UnifiedEvents × Act)}
    (h₀ : s₀ = start) (hl : (lts cap).Run s₀ l s) (hs : (lts cap).step s .connect t)
    (hedge : s.clients.edge = true) (hl' : (lts cap).Run t l' u) : 0 < u.clients.pending :=
  EdgeQueue.Server.left (S := server cap) h₀ hl hs rfl hedge hl'

/-- So many clients connect before the loop runs. -/
def waiting : ℕ → UnifiedEvents
  | 0 => start
  | n + 1 => { waiting n with clients := (waiting n).clients.act .arrive }

/-- Two clients that connect before the loop runs. -/
theorem clients_left_two : 0 < (waiting 2).clients.pending :=
  clients_left 1 (s := waiting 1) (t := waiting 2) rfl
    (Lts.Run.nil.snoc (show (lts 1).step start .connect (waiting 1) from rfl)) rfl rfl .nil

end UnifiedEvents

end Candcpp
