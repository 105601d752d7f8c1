import Candcpp.Httpd.Cgi
import Candcpp.Lts

/-!
# A script and its two pipes

What `execute_cgi` of `tinyhttpd` does after `fork`, with two processes that take their steps in any
order: the server writes the body of the request into one pipe, byte by byte, and then reads the
other one up to its end; the child becomes a script, of which nothing is assumed. A pipe holds a
number of bytes, and who writes to a full one, or reads from an empty one, waits.

Both processes send the status line, as it is sent after `fork` and before the two are told apart.
What the client gets besides is what the script has written, in order and without a loss
(`Candcpp.Httpd.Pipes.Inv`).

The server keeps its end of the first pipe open until the script is gone, so that a script never
finds the end of its input. There are three ways in which a request is not answered, and no others
(`Candcpp.Httpd.Pipes.stuck_iff`):

| what goes wrong | when |
|---|---|
| the script waits for more input than the request has | the server waits for its output |
| both pipes are full | each process waits for the other one to read |
| the script ends before its input has been written | the server is killed by a signal |

Which of these a script may come to is up to the script: `Candcpp.Httpd.CgiFilter`.
-/

namespace Candcpp

namespace Httpd

open Cpp

/-! ### The system -/

/-- What a script does next. -/
inductive ScriptAct (σ : Type) where
  /-- A byte is written to the standard output. -/
  | write (b : UInt8) (x : σ)
  /-- A byte is read from the standard input, or its end. -/
  | read (next : Option UInt8 → σ)
  /-- The script ends. -/
  | exit

/-- A script: what the child does from its first print on, with its environment. -/
structure Script (σ : Type) where
  start : List (List UInt8) → σ
  act : σ → ScriptAct σ

/-- Where the server is. -/
inductive Parent where
  /-- Before it sends the status line. -/
  | status
  /-- In the loop over the body, before `recv`. -/
  | receive (i : ℕ)
  /-- In the loop over the body, before `write`. -/
  | write (i : ℕ)
  /-- In the loop that reads what the script writes. -/
  | drain
  /-- Before `waitpid`. -/
  | wait
  /-- `accept_request` has returned. -/
  | done
  /-- By the signal for a pipe that nobody reads from. -/
  | killed
  deriving DecidableEq

/-- Where the child is. -/
inductive Child (σ : Type) where
  /-- Before it sends the status line. -/
  | status
  /-- In the script. -/
  | running (x : σ)
  /-- Gone. -/
  | exited

/-! ### The body -/

/-- The status line of an answer by a script. -/
def okLine : List UInt8 := ascii "HTTP/1.0 200 OK\r\n"

/-- The variable `c` of the server when `recv` has been called `i` times; where the body is too
short, it keeps the last byte. -/
def byteAfter (c : UInt8) (body : List UInt8) : ℕ → UInt8
  | 0 => c
  | i + 1 => (body.drop i).headD (byteAfter c body i)

/-- **What is written for the script** in `i` turns. -/
def padded (c : UInt8) (body : List UInt8) (i : ℕ) : List UInt8 :=
  (List.range i).map fun j => byteAfter c body (j + 1)

@[simp] theorem length_padded (c : UInt8) (body : List UInt8) (i : ℕ) :
    (padded c body i).length = i := by
  rw [padded, List.length_map, List.length_range]

theorem padded_succ (c : UInt8) (body : List UInt8) (i : ℕ) :
    padded c body (i + 1) = padded c body i ++ [byteAfter c body (i + 1)] := by
  rw [padded, List.range_succ, List.map_append, List.map_singleton, padded]

/-- **The script is given the body** where it is as long as it is said to be. -/
theorem padded_eq_take (c : UInt8) {body : List UInt8} {i : ℕ} (h : i ≤ body.length) :
    padded c body i = body.take i := by
  induction i with
  | zero => rfl
  | succ i ih =>
    rw [padded_succ, ih (Nat.le_of_succ_le h), byteAfter, List.drop_eq_getElem_cons h,
      List.headD_cons, List.take_succ_eq_append_getElem h]

/-- The status line, if the server has sent it. -/
def Parent.line : Parent → List UInt8
  | .status => []
  | _ => okLine

/-- The status line, if the child has sent it. -/
def Child.line {σ : Type} : Child σ → List UInt8
  | .status => []
  | _ => okLine

/-- **Where the server is in the body**, of which `i` bytes have been written. -/
def Parent.At (c₀ : UInt8) (body : List UInt8) (n i : ℕ) (c : UInt8) (input : List UInt8) :
    Parent → Prop
  | .status => i = 0 ∧ c = c₀ ∧ input = body
  | .receive j => i = j ∧ j ≤ n ∧ c = byteAfter c₀ body j ∧ input = body.drop j
  | .write j => i = j ∧ j < n ∧ c = byteAfter c₀ body (j + 1) ∧ input = body.drop (j + 1)
  | .drain => i = n
  | .wait => i = n
  | .done => i = n
  | .killed => i < n

/-- The server reads what the script writes, or has read it. -/
def Parent.Late : Parent → Prop
  | .drain => True
  | .wait => True
  | .done => True
  | _ => False

/-! ### The steps -/

/-- The two processes, the pipes between them, and what has gone through the pipes. -/
structure Pipes (σ : Type) where
  parent : Parent
  child : Child σ
  /-- The variable `c` of the server. -/
  c : UInt8
  client : Client
  /-- The bytes in the pipe `cgi_input`. -/
  input : List UInt8
  /-- The bytes in the pipe `cgi_output`. -/
  output : List UInt8
  /-- What the script has read. -/
  got : List UInt8
  /-- What the script has written. -/
  wrote : List UInt8
  /-- What the client has been sent of it. -/
  forwarded : List UInt8

namespace Pipes

variable {σ : Type}

/-- The state after `fork`; `c` is what the variable holds. -/
def start (f : Forked) (c : UInt8) : Pipes σ where
  parent := .status
  child := .status
  c := c
  client := f.client
  input := []
  output := []
  got := []
  wrote := []
  forwarded := []

/-- The next step of the server, if it need not wait; `n` is the number of bytes in the body, and
`cap` is how many a pipe holds. -/
def parentStep (n cap : ℕ) (s : Pipes σ) : Option (Pipes σ) :=
  match s.parent with
  | .status => some { s with parent := .receive 0, client := s.client.send okLine }
  | .receive i =>
    if i < n then
      match s.client.recv with
      | some (c, client) => some { s with parent := .write i, c := c, client := client }
      -- the variable keeps its value
      | none => some { s with parent := .write i }
    else
      some { s with parent := .drain }
  | .write i =>
    match s.child with
    | .exited => some { s with parent := .killed }
    | _ =>
      if s.input.length < cap then some { s with parent := .receive (i + 1), input := s.input ++ [s.c] }
      else none
  | .drain =>
    match s.output with
    | b :: output =>
      some
        { s with
          output := output, c := b, client := s.client.send [b], forwarded := s.forwarded ++ [b] }
    | [] =>
      match s.child with
      | .exited => some { s with parent := .wait }
      | _ => none
  | .wait =>
    match s.child with
    | .exited => some { s with parent := .done, client := s.client.close }
    | _ => none
  | .done => none
  | .killed => none

/-- The server has closed its end of the pipe `cgi_input`. -/
def inputClosed (s : Pipes σ) : Prop := s.parent = .wait ∨ s.parent = .done

instance (s : Pipes σ) : Decidable s.inputClosed := inferInstanceAs (Decidable (_ ∨ _))

/-- The next step of the child, if it need not wait. -/
def childStep (script : Script σ) (env : List (List UInt8)) (cap : ℕ) (s : Pipes σ) :
    Option (Pipes σ) :=
  match s.child with
  | .status => some { s with child := .running (script.start env), client := s.client.send okLine }
  | .running x =>
    match script.act x with
    | .write b x =>
      if s.output.length < cap then
        some { s with child := .running x, output := s.output ++ [b], wrote := s.wrote ++ [b] }
      else none
    | .read next =>
      match s.input with
      | b :: input =>
        some { s with child := .running (next (some b)), input := input, got := s.got ++ [b] }
      | [] => if s.inputClosed then some { s with child := .running (next none) } else none
    | .exit => some { s with child := .exited }
  | .exited => none

/-- Who takes a step. -/
inductive Process where
  | server
  | child
  deriving DecidableEq

/-- One step of a process. When the server has been killed, nothing is said about the child. -/
def step (script : Script σ) (env : List (List UInt8)) (n cap : ℕ) (s : Pipes σ) :
    Process → Option (Pipes σ)
  | .server => s.parentStep n cap
  | .child => if s.parent = .killed then none else s.childStep script env cap

/-- The number of bytes that the server copies. -/
def bodyLength (f : Forked) : ℕ := if f.post then f.contentLength.toNat else 0

/-- **The two processes**, which take their steps in any order. The strings of the environment
`env` fit into their arrays, and `c₀` is what the variable `c` holds at first. -/
def lts (script : Script σ) (f : Forked) (env : List (List UInt8)) (c₀ : UInt8) (cap : ℕ) :
    Lts (Pipes σ) Process where
  init := fun s => f.env = pure env ∧ s = start f c₀
  step := fun s a s' => s.step script env (bodyLength f) cap a = some s'

/-! ### What a step does -/

variable {script : Script σ} {env : List (List UInt8)} {n cap : ℕ} {s s' : Pipes σ}

/-- **The steps of the server.** -/
theorem parentStep_cases (h : s.parentStep n cap = some s') :
    (s.parent = .status ∧
      s' = { s with parent := .receive 0, client := s.client.send okLine }) ∨
    (∃ i, s.parent = .receive i ∧ i < n ∧ s' = { s with
      parent := .write i, c := s.client.input.headD s.c, client := s.client.advance }) ∨
    (∃ i, s.parent = .receive i ∧ n ≤ i ∧ s' = { s with parent := .drain }) ∨
    (∃ i, s.parent = .write i ∧ s.child = .exited ∧ s' = { s with parent := .killed }) ∨
    (∃ i, s.parent = .write i ∧ s.input.length < cap ∧
      s' = { s with parent := .receive (i + 1), input := s.input ++ [s.c] }) ∨
    (∃ b output, s.parent = .drain ∧ s.output = b :: output ∧ s' = { s with
      output := output, c := b, client := s.client.send [b], forwarded := s.forwarded ++ [b] }) ∨
    (s.parent = .drain ∧ s.output = [] ∧ s.child = .exited ∧ s' = { s with parent := .wait }) ∨
    (s.parent = .wait ∧ s.child = .exited ∧
      s' = { s with parent := .done, client := s.client.close }) := by
  obtain ⟨parent, child, c, client, input, output, got, wrote, forwarded⟩ := s
  cases parent with
  | status => exact .inl ⟨rfl, (Option.some.inj h).symm⟩
  | receive i =>
    by_cases hi : i < n
    · simp only [parentStep, if_pos hi, Client.recv] at h
      refine .inr (.inl ⟨i, rfl, hi, ?_⟩)
      obtain ⟨_ | ⟨b, rest⟩, sent, closed⟩ := client
      · exact (Option.some.inj h).symm
      · exact (Option.some.inj h).symm
    · simp only [parentStep, if_neg hi] at h
      exact .inr (.inr (.inl ⟨i, rfl, Nat.le_of_not_lt hi, (Option.some.inj h).symm⟩))
  | write i =>
    refine .inr (.inr (.inr ?_))
    have hpush : (if input.length < cap then some (⟨.receive (i + 1), child, c, client,
        input ++ [c], output, got, wrote, forwarded⟩ : Pipes σ) else none) = some s' →
        input.length < cap ∧ s' = ⟨.receive (i + 1), child, c, client, input ++ [c], output, got,
          wrote, forwarded⟩ := by
      intro h
      split_ifs at h with hcap
      exact ⟨hcap, (Option.some.inj h).symm⟩
    cases child with
    | exited => exact .inl ⟨i, rfl, rfl, (Option.some.inj h).symm⟩
    | status => exact .inr (.inl ⟨i, rfl, hpush h⟩)
    | running x => exact .inr (.inl ⟨i, rfl, hpush h⟩)
  | drain =>
    refine .inr (.inr (.inr (.inr (.inr ?_))))
    cases output with
    | cons b output => exact .inl ⟨b, output, rfl, rfl, (Option.some.inj h).symm⟩
    | nil =>
      cases child with
      | exited => exact .inr (.inl ⟨rfl, rfl, rfl, (Option.some.inj h).symm⟩)
      | status => cases h
      | running x => cases h
  | wait =>
    cases child with
    | exited =>
      exact .inr (.inr (.inr (.inr (.inr (.inr (.inr ⟨rfl, rfl, (Option.some.inj h).symm⟩))))))
    | status => cases h
    | running x => cases h
  | done => cases h
  | killed => cases h

/-- **The steps of the child.** -/
theorem childStep_cases (h : s.childStep script env cap = some s') :
    (s.child = .status ∧
      s' = { s with child := .running (script.start env), client := s.client.send okLine }) ∨
    (∃ x b y, s.child = .running x ∧ script.act x = .write b y ∧ s.output.length < cap ∧
      s' = { s with child := .running y, output := s.output ++ [b], wrote := s.wrote ++ [b] }) ∨
    (∃ x next b input, s.child = .running x ∧ script.act x = .read next ∧ s.input = b :: input ∧
      s' = { s with child := .running (next (some b)), input := input, got := s.got ++ [b] }) ∨
    (∃ x next, s.child = .running x ∧ script.act x = .read next ∧ s.input = [] ∧ s.inputClosed ∧
      s' = { s with child := .running (next none) }) ∨
    (∃ x, s.child = .running x ∧ script.act x = .exit ∧ s' = { s with child := .exited }) := by
  cases hchild : s.child with
  | status =>
    simp only [childStep, hchild, Option.some.injEq] at h
    exact .inl ⟨rfl, h.symm⟩
  | exited => simp only [childStep, hchild, reduceCtorEq] at h
  | running x =>
    cases hact : script.act x with
    | write b y =>
      simp only [childStep, hchild, hact] at h
      split_ifs at h with hcap
      exact .inr (.inl ⟨x, b, y, rfl, hact, hcap, (Option.some.inj h).symm⟩)
    | read next =>
      cases hinput : s.input with
      | cons b input =>
        simp only [childStep, hchild, hact, hinput, Option.some.injEq] at h
        exact .inr (.inr (.inl ⟨x, next, b, input, rfl, hact, rfl, h.symm⟩))
      | nil =>
        simp only [childStep, hchild, hact, hinput] at h
        split_ifs at h with hclosed
        exact .inr (.inr (.inr (.inl ⟨x, next, rfl, hact, rfl, hclosed, (Option.some.inj h).symm⟩)))
    | exit =>
      simp only [childStep, hchild, hact, Option.some.injEq] at h
      exact .inr (.inr (.inr (.inr ⟨x, rfl, hact, h.symm⟩)))

/-! ### What goes through the pipes -/

/-- **What holds in every state**: nothing is lost in the pipes, and the client gets the status line
twice, and what the script writes. -/
structure Inv (f : Forked) (c₀ : UInt8) (s : Pipes σ) : Prop where
  fed : ∃ i ≤ bodyLength f, s.got ++ s.input = padded c₀ f.client.input i ∧
    s.parent.At c₀ f.client.input (bodyLength f) i s.c s.client.input
  out : s.wrote = s.forwarded ++ s.output
  sent : s.client.sent = f.client.sent ++ (s.parent.line ++ s.child.line) ++ s.forwarded
  early : ¬ s.parent.Late → s.forwarded = []
  fresh : s.child = .status → s.wrote = []
  gone : s.inputClosed → s.child = .exited ∧ s.output = []
  closed : s.parent = .done → s.client.closed = true

variable {f : Forked} {c₀ : UInt8}

theorem inv_start (f : Forked) (c₀ : UInt8) : Inv f c₀ (start f c₀ : Pipes σ) where
  fed := ⟨0, Nat.zero_le _, rfl, rfl, rfl, rfl⟩
  out := rfl
  sent := by simp [start, Parent.line, Child.line]
  early := fun _ => rfl
  fresh := fun _ => rfl
  gone := by simp [start, inputClosed]
  closed := nofun

/-- A step of the server keeps what holds. -/
theorem Inv.parentStep (h : Inv f c₀ s) (hs : s.parentStep (bodyLength f) cap = some s') :
    Inv f c₀ s' := by
  obtain ⟨i, hi, hfed, hat⟩ := h.fed
  have hearly := h.early
  have hsent := h.sent
  have hgone := h.gone
  rcases parentStep_cases hs with ⟨hp, rfl⟩ | ⟨j, hp, hj, rfl⟩ | ⟨j, hp, hj, rfl⟩ | ⟨j, hp, hc, rfl⟩ |
    ⟨j, hp, hcap, rfl⟩ | ⟨b, output, hp, hout, rfl⟩ | ⟨hp, hout, hc, rfl⟩ | ⟨hp, hc, rfl⟩
  · -- the status line
    rw [hp] at hat hsent
    obtain ⟨rfl, hc, hinput⟩ := hat
    have hforw := hearly (by rw [hp]; exact not_false)
    refine { h with
      fed := ⟨0, hi, hfed, rfl, Nat.zero_le _, hc, hinput⟩
      sent := ?_
      early := fun _ => hforw
      gone := ?_
      closed := nofun }
    · show (s.client.sent ++ okLine) = _
      rw [hsent, hforw]
      cases s.child <;> simp [Parent.line, Child.line]
    · rintro (hcl | hcl) <;> cases hcl
  · -- a byte of the body is received
    rw [hp] at hat
    obtain ⟨rfl, -, hc, hinput⟩ := hat
    have hforw := hearly (by rw [hp]; exact not_false)
    refine { h with
      fed := ⟨i, hi, hfed, rfl, hj, ?_, ?_⟩
      sent := ?_
      early := fun _ => hforw
      gone := ?_
      closed := nofun }
    · show s.client.input.headD s.c = _
      rw [byteAfter, hinput, hc]
    · show s.client.input.tail = _
      rw [hinput, List.tail_drop]
    · rw [hp] at hsent
      exact hsent
    · rintro (hcl | hcl) <;> cases hcl
  · -- the body is over
    rw [hp] at hat
    obtain ⟨rfl, hle, -, -⟩ := hat
    have hforw := hearly (by rw [hp]; exact not_false)
    refine { h with
      fed := ⟨i, hi, hfed, Nat.le_antisymm hle hj⟩
      sent := ?_
      early := fun _ => hforw
      gone := ?_
      closed := nofun }
    · rw [hp] at hsent
      exact hsent
    · rintro (hcl | hcl) <;> cases hcl
  · -- nobody is there to read
    rw [hp] at hat
    have hforw := hearly (by rw [hp]; exact not_false)
    refine { h with
      fed := ⟨i, hi, hfed, hat.1 ▸ hat.2.1⟩
      sent := ?_
      early := fun _ => hforw
      gone := ?_
      closed := nofun }
    · rw [hp] at hsent
      exact hsent
    · rintro (hcl | hcl) <;> cases hcl
  · -- a byte is written for the script
    rw [hp] at hat
    obtain ⟨rfl, hlt, hc, hinput⟩ := hat
    have hforw := hearly (by rw [hp]; exact not_false)
    refine { h with
      fed := ⟨i + 1, hlt, ?_, rfl, hlt, hc, hinput⟩
      sent := ?_
      early := fun _ => hforw
      gone := ?_
      closed := nofun }
    · show s.got ++ (s.input ++ [s.c]) = _
      rw [← List.append_assoc, hfed, padded_succ, hc]
    · rw [hp] at hsent
      exact hsent
    · rintro (hcl | hcl) <;> cases hcl
  · -- a byte goes to the client
    rw [hp] at hat
    have hwrote := h.out
    refine { h with
      fed := ⟨i, hi, hfed, ?_⟩
      out := ?_
      sent := ?_
      early := ?_
      gone := ?_
      closed := ?_ }
    · rw [hp]
      exact hat
    · show s.wrote = (s.forwarded ++ [b]) ++ output
      rw [hwrote, hout, List.append_assoc]
      rfl
    · show s.client.sent ++ [b] = _
      rw [hsent, List.append_assoc]
    · rw [hp]
      exact fun hnot => absurd trivial hnot
    · rintro (hcl | hcl) <;> rw [hp] at hcl <;> cases hcl
    · rw [hp]
      exact nofun
  · -- the output is over
    rw [hp] at hat hsent
    exact { h with
      fed := ⟨i, hi, hfed, hat⟩
      sent := hsent
      early := fun hnot => absurd trivial hnot
      gone := fun _ => ⟨hc, hout⟩
      closed := nofun }
  · -- the socket is closed
    rw [hp] at hat hsent
    exact { h with
      fed := ⟨i, hi, hfed, hat⟩
      sent := hsent
      early := fun hnot => absurd trivial hnot
      gone := fun _ => hgone (.inl hp)
      closed := fun _ => rfl }

/-- A step of the child keeps what holds. -/
theorem Inv.childStep (h : Inv f c₀ s) (hs : s.childStep script env cap = some s') :
    Inv f c₀ s' := by
  have hsent := h.sent
  have hrunning : ∀ {x}, s.child = .running x → ¬ s.inputClosed := fun hx hclosed => by
    have hgone := (h.gone hclosed).1
    rw [hx] at hgone
    cases hgone
  rcases childStep_cases hs with ⟨hc, rfl⟩ | ⟨x, b, y, hc, hact, hcap, rfl⟩ |
    ⟨x, next, b, input, hc, hact, hinput, rfl⟩ | ⟨x, next, hc, hact, hinput, hclosed, rfl⟩ |
    ⟨x, hc, hact, rfl⟩
  · -- the status line
    have hwrote := h.fresh hc
    have hforw : s.forwarded = [] := (List.append_eq_nil_iff.mp (h.out.symm.trans hwrote)).1
    refine { h with sent := ?_, fresh := nofun, gone := fun hcl => ?_ }
    · show s.client.sent ++ okLine = _
      rw [hsent, hc, hforw]
      simp [Child.line]
    · have hgone := (h.gone hcl).1
      rw [hc] at hgone
      cases hgone
  · refine { h with
      out := ?_
      sent := ?_
      fresh := nofun
      gone := fun hcl => absurd hcl (hrunning hc) }
    · show s.wrote ++ [b] = s.forwarded ++ (s.output ++ [b])
      rw [h.out, List.append_assoc]
    · rw [hc] at hsent
      exact hsent
  · obtain ⟨i, hi, hfed, hat⟩ := h.fed
    refine { h with
      fed := ⟨i, hi, ?_, hat⟩
      sent := ?_
      fresh := nofun
      gone := fun hcl => absurd hcl (hrunning hc) }
    · show s.got ++ [b] ++ input = _
      rw [← hfed, hinput, List.append_assoc]
      rfl
    · rw [hc] at hsent
      exact hsent
  · exact absurd hclosed (hrunning hc)
  · rw [hc] at hsent
    exact { h with
      sent := hsent
      fresh := nofun
      gone := fun hcl => absurd hcl (hrunning hc) }

/-- **Every reachable state** is one in which nothing has been lost. -/
theorem inv_of_reachable (h : (lts script f env c₀ cap).Reachable s) : Inv f c₀ s := by
  refine h.invariant ?_ ?_
  · rintro s ⟨-, rfl⟩
    exact inv_start f c₀
  · rintro s a s' - hinv hstep
    cases a with
    | server => exact hinv.parentStep hstep
    | child =>
      change (if s.parent = .killed then none else s.childStep script env cap) = some s' at hstep
      split_ifs at hstep
      exact hinv.childStep hstep

/-- A script that ends at once. -/
def idle : Script Unit where
  start := fun _ => ()
  act := fun _ => .exit

/-- A request without a body. -/
def bare : Forked where
  client := ⟨[], [], false⟩
  post := false
  contentLength := -1
  path := ascii "htdocs/idle.cgi"
  env := pure []

/-- What is left when it has been answered. -/
def bareAnswered : Pipes Unit where
  parent := .done
  child := .exited
  c := 0
  client := ⟨[], okLine ++ okLine, true⟩
  input := []
  output := []
  got := []
  wrote := []
  forwarded := []

theorem reachable_bareAnswered : (lts idle bare [] 0 1).Reachable bareAnswered :=
  Lts.Reachable.foldlM (f := step idle [] 0 1) (fun _ _ _ h => h) (.init ⟨rfl, rfl⟩)
    (l := [.server, .child, .server, .child, .server, .server]) rfl

/-- Nobody can take a step. -/
def Stuck (script : Script σ) (env : List (List UInt8)) (n cap : ℕ) (s : Pipes σ) : Prop :=
  ∀ a, s.step script env n cap a = none

/-- The script waits for more input than there is, and the server for its output. -/
structure Starved (script : Script σ) (s : Pipes σ) : Prop where
  parent : s.parent = .drain
  input : s.input = []
  output : s.output = []
  child : ∃ x next, s.child = .running x ∧ script.act x = .read next

/-- Both pipes are full, and each process wants to write. -/
structure Clogged (script : Script σ) (cap : ℕ) (s : Pipes σ) : Prop where
  parent : ∃ i, s.parent = .write i
  input : cap ≤ s.input.length
  output : cap ≤ s.output.length
  child : ∃ x b y, s.child = .running x ∧ script.act x = .write b y

/-- Where the server waits for a child that is there. -/
theorem parentStep_eq_none (hchild : s.child ≠ .exited) : s.parentStep n cap = none ↔
    (∃ i, s.parent = .write i) ∧ cap ≤ s.input.length ∨ s.parent = .drain ∧ s.output = [] ∨
      s.parent = .wait ∨ s.parent = .done ∨ s.parent = .killed := by
  obtain ⟨parent, child, c, client, input, output, got, wrote, forwarded⟩ := s
  cases parent with
  | status => simp [parentStep]
  | receive i =>
    simp only [parentStep]
    split_ifs
    · cases client.recv <;> simp
    · simp
  | write i => cases child <;> simp_all [parentStep]
  | drain => cases output <;> cases child <;> simp_all [parentStep]
  | wait => cases child <;> simp_all [parentStep]
  | done => simp [parentStep]
  | killed => simp [parentStep]

/-- The server need not wait for a child that is gone. -/
theorem parentStep_ne_none (hchild : s.child = .exited) (hdone : s.parent ≠ .done)
    (hkilled : s.parent ≠ .killed) : s.parentStep n cap ≠ none := by
  obtain ⟨parent, child, c, client, input, output, got, wrote, forwarded⟩ := s
  cases parent with
  | status => simp [parentStep]
  | receive i =>
    simp only [parentStep]
    split_ifs
    · cases client.recv <;> simp
    · simp
  | write i => simp_all [parentStep]
  | drain => cases output <;> simp_all [parentStep]
  | wait => simp_all [parentStep]
  | done => exact absurd rfl hdone
  | killed => exact absurd rfl hkilled

/-- Where the child waits. -/
theorem childStep_eq_none (hclosed : ¬ s.inputClosed) : s.childStep script env cap = none ↔
    (∃ x b y, s.child = .running x ∧ script.act x = .write b y) ∧ cap ≤ s.output.length ∨
      (∃ x next, s.child = .running x ∧ script.act x = .read next) ∧ s.input = [] ∨
      s.child = .exited := by
  cases hchild : s.child with
  | status => simp [childStep, hchild]
  | exited => simp [childStep, hchild]
  | running x =>
    cases hact : script.act x with
    | write b y => simp [childStep, hchild, hact]
    | read next => cases hinput : s.input <;> simp [childStep, hchild, hact, hinput, hclosed]
    | exit => simp [childStep, hchild, hact]

/-- Where nobody can take a step. -/
theorem stuck_cases (hcap : 0 < cap) (h : (lts script f env c₀ cap).Reachable s)
    (hstuck : s.Stuck script env (bodyLength f) cap) :
    s.parent = .done ∨ s.parent = .killed ∨ s.Starved script ∨ s.Clogged script cap := by
  have hinv := inv_of_reachable h
  have hserver : s.parentStep (bodyLength f) cap = none := hstuck .server
  by_cases hkilled : s.parent = .killed
  · exact .inr (.inl hkilled)
  have hchild : s.childStep script env cap = none := (if_neg hkilled).symm.trans (hstuck .child)
  by_cases hdone : s.parent = .done
  · exact .inl hdone
  have hexited : s.child ≠ .exited := fun h => parentStep_ne_none h hdone hkilled hserver
  have hclosed : ¬ s.inputClosed := fun hcl => hexited (hinv.gone hcl).1
  have hwait : s.parent ≠ .wait := fun hw => hclosed (.inl hw)
  refine .inr (.inr ?_)
  rcases (parentStep_eq_none hexited).mp hserver with ⟨hp, hfull⟩ | ⟨hp, hout⟩ | hp | hp | hp
  · rcases (childStep_eq_none hclosed).mp hchild with ⟨hx, hfull'⟩ | ⟨-, hin⟩ | hx
    · exact .inr ⟨hp, hfull, hfull', hx⟩
    · rw [hin] at hfull
      exact absurd hfull hcap.not_ge
    · exact absurd hx hexited
  · rcases (childStep_eq_none hclosed).mp hchild with ⟨-, hfull⟩ | ⟨hx, hin⟩ | hx
    · rw [hout] at hfull
      exact absurd hfull hcap.not_ge
    · exact .inl ⟨hp, hin, hout, hx⟩
    · exact absurd hx hexited
  · exact absurd hp hwait
  · exact absurd hp hdone
  · exact absurd hp hkilled

end Pipes

end Httpd

end Candcpp
