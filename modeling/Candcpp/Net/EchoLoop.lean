import Candcpp.Cpp.Loop

/-!
# Echoing what a client sends

`Connection::echo` of `5_main_sub_reactor` reads from a socket that does not block, in a loop, and
writes every message back as soon as it has been read. Two things depend on what the system calls
return.

* **What `::write` returns is not looked at.** If it accepts only a part of a message, or nothing,
  the rest is lost: the client gets back what it has sent exactly if every message is accepted as a
  whole (`Candcpp.EchoCall.echo_handed_iff`).
* **The branches for the errors of `::read` are `EAGAIN` and `EINTR`.** After any other error the
  loop goes on as well, so that it ends exactly if `::read` returns zero or fails with `EAGAIN` at
  some time (`Candcpp.EchoCall.echo_ends_iff`). A function next to it, `Connection::read`, has a
  branch for the other errors.
-/

namespace Candcpp

open Cpp

/-! ### The code -/

/-- What a call of `::read` returns. -/
inductive ReadOutcome where
  /-- Some bytes; none at the end of the file. -/
  | bytes (data : List ℕ) : ReadOutcome
  /-- The error `EAGAIN`. -/
  | again : ReadOutcome
  /-- The error `EINTR`. -/
  | interrupted : ReadOutcome
  /-- Any other error. -/
  | failed : ReadOutcome
  deriving DecidableEq, Repr

/-- What a call of `::write` returns. -/
inductive WriteOutcome where
  /-- The number of bytes that are accepted, if there are that many. -/
  | count (n : ℕ) : WriteOutcome
  /-- The error `EAGAIN`. -/
  | again : WriteOutcome
  deriving DecidableEq, Repr

/-- What the calls of one turn of the loop return. The second one is only made if the first one has
returned some bytes. -/
structure EchoOutcome where
  read : ReadOutcome
  write : WriteOutcome

/-- A call of `echo`: what it has read, what the socket has accepted, and whether it has called
`deleteConnectionCallback`. -/
structure EchoCall where
  read : List ℕ
  handed : List ℕ
  closed : Bool

namespace WriteOutcome

/-- The number of bytes that can be accepted. -/
def accepts : WriteOutcome → ℕ
  | count n => n
  | again => 0

end WriteOutcome

namespace ReadOutcome

/-- The bytes that have been read. -/
def data : ReadOutcome → List ℕ
  | bytes data => data
  | again => []
  | interrupted => []
  | failed => []

/-- The loop is left. -/
def Stops : ReadOutcome → Prop
  | bytes data => data = []
  | again => True
  | interrupted => False
  | failed => False

end ReadOutcome

namespace EchoCall

/-- `echo` has been called. -/
def start : EchoCall where
  read := []
  handed := []
  closed := false

/-- `::write(clientFd, msg.c_str(), msg.size())`, after `msg` has been read. -/
def write (s : EchoCall) (msg : List ℕ) (o : WriteOutcome) : EchoCall :=
  { s with read := s.read ++ msg, handed := s.handed ++ msg.take o.accepts }

/-- The body of the loop; `callback` says whether `deleteConnectionCallback` is set. -/
def turn (callback : Bool) (s : EchoCall) (o : EchoOutcome) : Exec (Turn EchoCall EchoCall) :=
  match o.read with
  | .bytes [] =>
    if callback then pure (.leave { s with closed := true }) else throw .emptyFunction
  | .bytes (b :: bs) => pure (.again (s.write (b :: bs) o.write))
  | .again => pure (.leave s)
  | .interrupted => pure (.again s)
  -- no branch is taken
  | .failed => pure (.again s)

/-- `Connection::echo`. -/
def echo (callback : Bool) (outcomes : ℕ → EchoOutcome) : Result EchoCall :=
  drain (turn callback) outcomes start 0

variable {callback : Bool} {outcomes : ℕ → EchoOutcome} {s s' : EchoCall} {o : EchoOutcome} {n : ℕ}

/-- **A turn that goes on** has handed on a part of what it has read. -/
theorem turn_again (h : ¬ o.read.Stops) (callback : Bool) (s : EchoCall) :
    turn callback s o = pure (.again (s.write o.read.data o.write)) := by
  rw [turn]
  match o.read, h with
  | .bytes (b :: bs), _ => rfl
  | .again, h => exact absurd trivial h
  | .interrupted, _ | .failed, _ => simp [ReadOutcome.data, write]

/-- **A turn that does not go on** leaves the loop, unless it calls an empty function. -/
theorem turn_stops (h : o.read.Stops) (callback : Bool) (s : EchoCall) :
    (∃ b, turn callback s o = pure (.leave { s with closed := b })) ∨
      callback = false ∧ turn callback s o = throw .emptyFunction := by
  rw [turn]
  match o.read, h with
  | .bytes [], _ =>
    cases callback with
    | true => exact .inl ⟨true, rfl⟩
    | false => exact .inr ⟨rfl, rfl⟩
  | .again, _ => exact .inl ⟨s.closed, rfl⟩

theorem not_stops_of_again (h : turn callback s o = pure (.again s')) : ¬ o.read.Stops := by
  intro hstop
  rcases turn_stops hstop callback s with ⟨b, hb⟩ | ⟨-, ht⟩
  · exact nomatch Exec.pure_unique h hb
  · exact Exec.pure_ne_throw _ _ (h.symm.trans ht)

theorem stops_of_leave (h : turn callback s o = pure (.leave s')) : o.read.Stops := by
  by_contra hgo
  exact nomatch Exec.pure_unique h (turn_again hgo callback s)

/-! ### What is handed on -/

/-- Each of the messages is accepted as a whole, until the loop is left. -/
def AllAccepted (outcomes : ℕ → EchoOutcome) : Prop :=
  ∀ n, (∀ m ≤ n, ¬ (outcomes m).read.Stops) →
    (outcomes n).read.data.length ≤ (outcomes n).write.accepts

/-- What holds when the loop has gone on for `n` turns. -/
structure Echoes (outcomes : ℕ → EchoOutcome) (n : ℕ) (s : EchoCall) : Prop where
  going : ∀ m < n, ¬ (outcomes m).read.Stops
  length_le : s.handed.length ≤ s.read.length
  handed_iff : s.handed = s.read ↔
    ∀ m < n, (outcomes m).read.data.length ≤ (outcomes m).write.accepts

/-- Two messages in a row are handed on if each of them is. -/
theorem append_take_eq_append {handed read msg : List ℕ} {k : ℕ}
    (h : handed.length ≤ read.length) :
    handed ++ msg.take k = read ++ msg ↔ handed = read ∧ msg.length ≤ k := by
  constructor
  · intro heq
    have hlen := congrArg List.length heq
    rw [List.length_append, List.length_append] at hlen
    have hle := List.length_take_le' k msg
    -- neither part can be shorter, as the other one is not longer
    have hhanded := List.append_inj heq (by omega)
    exact ⟨hhanded.1, List.take_eq_self_iff msg |>.mp hhanded.2⟩
  · rintro ⟨rfl, hk⟩
    rw [List.take_of_length_le hk]

theorem Echoes.again (h : Echoes outcomes n s)
    (ht : turn callback s (outcomes n) = pure (.again s')) : Echoes outcomes (n + 1) s' := by
  have hgo := not_stops_of_again ht
  obtain rfl := Turn.again.inj (Exec.pure_unique ht (turn_again hgo callback s))
  have hsucc : ∀ p : ℕ → Prop, (∀ m < n + 1, p m) ↔ (∀ m < n, p m) ∧ p n := fun p =>
    Nat.forall_lt_succ_right
  refine ⟨(hsucc _).mpr ⟨h.going, hgo⟩, ?_, ?_⟩
  · have hle := h.length_le
    simp only [write, List.length_append, List.length_take]
    omega
  · simp only [write, append_take_eq_append h.length_le, h.handed_iff]
    exact (hsucc _).symm

theorem echoes_start (outcomes : ℕ → EchoOutcome) : Echoes outcomes 0 start where
  going := nofun
  length_le := le_rfl
  handed_iff := iff_of_true rfl nofun

/-- **What the client gets back**: when `echo` has returned, the socket has been handed exactly what
has been read if and only if each message was accepted as a whole. -/
theorem echo_handed_iff (h : echo callback outcomes = (pure s : Exec _)) :
    s.handed = s.read ↔ AllAccepted outcomes := by
  obtain ⟨n, t, hd, ht⟩ := drain_eq_pure.mp h
  have he : Echoes outcomes n t :=
    hd.invariant (echoes_start outcomes) fun _ _ _ he ht => he.again ht
  have hstop := stops_of_leave ht
  -- the last turn writes nothing
  obtain ⟨b, hb⟩ : ∃ b, s = { t with closed := b } := by
    rcases turn_stops hstop callback t with ⟨b, hb⟩ | ⟨-, hthrow⟩
    · exact ⟨b, Turn.leave.inj (Exec.pure_unique ht hb)⟩
    · exact absurd (ht.symm.trans hthrow) (Exec.pure_ne_throw _ _)
  rw [hb, he.handed_iff]
  constructor
  · intro hall m hgo
    refine hall m (lt_of_not_ge fun hnm => ?_)
    exact hgo n hnm hstop
  · intro hall m hm
    exact hall m fun k hk => he.going k (lt_of_le_of_lt hk hm)

/-- A message of two bytes, which is accepted, and `EAGAIN`. -/
theorem echo_handed_iff_two :
    [7, 8] = [7, 8] ↔
      AllAccepted fun n => ⟨if n = 0 then .bytes [7, 8] else .again, .count 2⟩ :=
  @echo_handed_iff true _ ⟨[7, 8], [7, 8], false⟩
    (drain_eq_pure.mpr ⟨1, ⟨[7, 8], [7, 8], false⟩, .again .start rfl, rfl⟩)

/-- When the first of two bytes is accepted only, the second one is lost. -/
theorem not_echo_handed :
    ¬ ∀ (callback : Bool) (outcomes : ℕ → EchoOutcome) (s : EchoCall),
      echo callback outcomes = (pure s : Exec _) → s.closed = false → s.handed = s.read := by
  intro h
  have h7 := h true (fun n => ⟨if n = 0 then .bytes [7, 8] else .again, .count 1⟩)
    ⟨[7, 8], [7], false⟩
    (drain_eq_pure.mpr ⟨1, ⟨[7, 8], [7], false⟩, .again .start rfl, rfl⟩) rfl
  exact absurd h7 (by decide)

/-! ### Whether the loop ends -/

/-- **When `echo` ends**: it returns, or calls an empty function, exactly if `::read` returns zero
or fails with `EAGAIN` at some time. -/
theorem echo_ends_iff (callback : Bool) (outcomes : ℕ → EchoOutcome) :
    ((∃ s, echo callback outcomes = (pure s : Exec _)) ∨
        callback = false ∧ echo callback outcomes = (throw .emptyFunction : Exec _)) ↔
      ∃ n, (outcomes n).read.Stops := by
  constructor
  · rintro (⟨s, hs⟩ | ⟨-, hthrow⟩)
    · obtain ⟨n, t, -, ht⟩ := drain_eq_pure.mp hs
      exact ⟨n, stops_of_leave ht⟩
    · obtain ⟨n, t, -, ht⟩ := drain_eq_throw.mp hthrow
      refine ⟨n, not_not.mp fun hgo => ?_⟩
      exact Exec.pure_ne_throw _ _ ((turn_again hgo callback t).symm.trans ht)
  · intro h
    obtain ⟨n, hstop, hmin⟩ := exists_first_outcome h
    obtain ⟨t, hd⟩ := Drained.of_forall (s := start) fun m hm t =>
      ⟨_, turn_again (hmin m hm) callback t⟩
    rcases turn_stops hstop callback t with ⟨b, hb⟩ | ⟨hcb, hthrow⟩
    · exact .inl ⟨_, drain_eq_pure.mpr ⟨n, t, hd, hb⟩⟩
    · exact .inr ⟨hcb, drain_eq_throw.mpr ⟨n, t, hd, hthrow⟩⟩

/-- The outcomes of a stream that are messages or interruptions. -/
def Retried (outcomes : ℕ → EchoOutcome) : Set ℕ :=
  {n | (outcomes n).read = .interrupted ∨ (outcomes n).read.data ≠ []}

/-- After an error that persists the loop goes on for ever, although nothing is read. -/
theorem not_echo_ends :
    ¬ ∀ outcomes : ℕ → EchoOutcome, (Retried outcomes).Finite →
      ∃ s, echo true outcomes = (pure s : Exec _) := by
  intro h
  have hfinite : (Retried fun _ => ⟨.failed, .again⟩).Finite := by
    convert Set.finite_empty
    ext n
    simp [Retried, ReadOutcome.data]
  obtain ⟨s, hs⟩ := h _ hfinite
  obtain ⟨n, t, -, ht⟩ := drain_eq_pure.mp hs
  exact stops_of_leave ht

end EchoCall

end Candcpp
