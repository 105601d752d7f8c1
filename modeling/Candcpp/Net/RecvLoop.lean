import Candcpp.Cpp.Loop
import Candcpp.Net.EdgeServers

/-!
# Receiving until there is nothing to receive

The loops around `recv` in `et` of `LT_ET_test.cpp` and in `process_tcp_udp_simultaneously.cpp`, as
the sequence of the calls that they make with the descriptor of the client. A `recv` fails with
`EBADF` once the descriptor is closed, or meets the client of another connection, which has got the
same number.

At an error the descriptor is closed and the loop is left. **At the end of the stream the descriptor
is closed, but the loop is not left**: it calls `recv` and `close` once more. So a loop ends, and
closes the descriptor at most once and as the last thing it does, exactly if the first `recv` that
returns no bytes fails (`Candcpp.RecvLoop.recv_safe_iff`).

What the calls do to the descriptors is what `Candcpp.EdgeClients.recvLoop` does
(`Candcpp.RecvLoop.recvLoop_performs`).
-/

namespace Candcpp

open Cpp

open CloseNonactivity (Recv)

/-! ### The code -/

/-- A call with the descriptor of the client. -/
inductive ClientCall where
  | recv : ClientCall
  | send (data : List ℕ) : ClientCall
  | close : ClientCall
  deriving DecidableEq, Repr

/-- The loop: whether the descriptor is open, and the calls that have been made. -/
structure RecvLoop where
  opened : Bool
  calls : List ClientCall
  deriving DecidableEq

namespace RecvLoop

/-- The loop is entered for an open descriptor. -/
def start : RecvLoop where
  opened := true
  calls := []

/-- `recv(sockfd, …)` or `send(sockfd, …)`. -/
def call (s : RecvLoop) (c : ClientCall) : RecvLoop := { s with calls := s.calls ++ [c] }

/-- `close(sockfd)`. -/
def close (s : RecvLoop) : RecvLoop where
  opened := false
  calls := s.calls ++ [.close]

/-- The body of a loop, which sends back what it gets if `reply` is set. `r` is what `recv` returns
if the descriptor is open. -/
def turn (reply : Bool) (s : RecvLoop) (r : Recv) : Exec (Turn RecvLoop RecvLoop) :=
  match if s.opened then r else .error false with
  | .error again => pure (.leave (if again then s.call .recv else (s.call .recv).close))
  -- there is no `break`
  | .bytes [] => pure (.again (s.call .recv).close)
  | .bytes (b :: bs) =>
    pure (.again (if reply then (s.call .recv).call (.send (b :: bs)) else s.call .recv))

/-- The loop of `et`. -/
def et (recvs : ℕ → Recv) : Result RecvLoop := drain (turn false) recvs start 0

/-- The loop of `process_tcp_udp_simultaneously.cpp`. -/
def processTcpUdp (recvs : ℕ → Recv) : Result RecvLoop := drain (turn true) recvs start 0

/-! ### The calls with a descriptor -/

/-- `recv` has returned some bytes. -/
def GotBytes (r : Recv) : Prop := ∃ b bs, r = .bytes (b :: bs)

/-- Nothing is called after `close`. -/
def ClosedLast (calls : List ClientCall) : Prop := ∀ l l', calls = l ++ .close :: l' → l' = []

/-- The loop returns, it has closed the descriptor at most once, and has called nothing since. -/
def Safe (e : Result RecvLoop) : Prop :=
  ∃ s : RecvLoop, e = (pure s : Exec _) ∧ s.calls.count .close ≤ 1 ∧ ClosedLast s.calls

/-- The first `recv` that returns no bytes fails. -/
def FailsFirst (recvs : ℕ → Recv) : Prop :=
  ∃ n again, (∀ m < n, GotBytes (recvs m)) ∧ recvs n = .error again

variable {reply : Bool} {recvs : ℕ → Recv} {s s' : RecvLoop} {calls : List ClientCall} {n : ℕ}

theorem closedLast_of_notMem (h : .close ∉ calls) : ClosedLast calls := by
  rintro l l' rfl
  simp at h

theorem closedLast_concat (h : .close ∉ calls) : ClosedLast (calls ++ [.close]) := by
  intro l l' hl
  rcases List.eq_nil_or_concat l' with rfl | ⟨l'', c, rfl⟩
  · rfl
  · -- the `close` before the last call would be one of `calls`
    rw [List.concat_eq_append, ← List.cons_append, ← List.append_assoc] at hl
    rw [(List.append_inj' hl rfl).1] at h
    simp at h

theorem turn_bytes (h : s.opened = true) (reply : Bool) (b : ℕ) (bs : List ℕ) :
    turn reply s (.bytes (b :: bs)) = pure (.again
      (if reply then (s.call .recv).call (.send (b :: bs)) else s.call .recv)) := by
  simp [turn, h]

theorem turn_end (h : s.opened = true) (reply : Bool) :
    turn reply s (.bytes []) = pure (.again (s.call .recv).close) := by
  simp [turn, h]

theorem turn_error (h : s.opened = true) (reply again : Bool) :
    turn reply s (.error again) =
      pure (.leave (if again then s.call .recv else (s.call .recv).close)) := by
  simp [turn, h]

/-- With a descriptor that is closed, `recv` fails, and it is closed again. -/
theorem turn_closed (h : s.opened = false) (reply : Bool) (r : Recv) :
    turn reply s r = pure (.leave (s.call .recv).close) := by
  simp [turn, h]

/-- As long as it gets bytes, the loop goes on, and does not close the descriptor. -/
theorem exists_drained (reply : Bool) (hbytes : ∀ m < n, GotBytes (recvs m)) :
    ∃ t, Drained (turn reply) recvs start n t ∧ t.opened = true ∧ .close ∉ t.calls := by
  induction n with
  | zero => exact ⟨start, .start, rfl, nofun⟩
  | succ n ih =>
    obtain ⟨t, ht, hopen, hclose⟩ := ih fun m hm => hbytes m (Nat.lt_succ_of_lt hm)
    obtain ⟨b, bs, hr⟩ := hbytes n (Nat.lt_succ_self n)
    refine ⟨_, ht.again (by rw [hr, turn_bytes hopen]), ?_⟩
    cases reply <;> simp [call, hopen, hclose]

/-- **An error first**: the loop is left, and `close` is the last call if it is called at all. -/
theorem safe_of_failsFirst (reply : Bool) (h : FailsFirst recvs) :
    Safe (drain (turn reply) recvs start 0) := by
  obtain ⟨n, again, hbytes, herror⟩ := h
  obtain ⟨t, ht, hopen, hclose⟩ := exists_drained reply hbytes
  have hturn := turn_error hopen reply again
  rw [← herror] at hturn
  have hrecv : .close ∉ (t.call .recv).calls := by simp [call, hclose]
  refine ⟨_, drain_eq_pure.mpr ⟨n, t, ht, hturn⟩, ?_⟩
  cases again with
  | true => exact ⟨by simp [List.count_eq_zero.mpr hrecv], closedLast_of_notMem hrecv⟩
  | false => exact ⟨by simp [close, List.count_eq_zero.mpr hrecv], closedLast_concat hrecv⟩

/-- **The end of the stream first**: `recv` is called after `close`, and then `close`. -/
theorem not_closedLast_of_end (hbytes : ∀ m < n, GotBytes (recvs m))
    (hend : recvs n = .bytes []) (h : drain (turn reply) recvs start 0 = (pure s : Exec _)) :
    ¬ ClosedLast s.calls := by
  obtain ⟨t, ht, hopen, -⟩ := exists_drained reply hbytes
  -- the turn in which the stream ends, and the one after it
  have hagain := ht.again (by rw [hend, turn_end hopen])
  have hleave := turn_closed (s := (t.call .recv).close) rfl reply (recvs (n + 1))
  obtain rfl := Exec.pure_unique h (drain_eq_pure.mpr ⟨n + 1, _, hagain, hleave⟩)
  intro hlast
  have htail := hlast (t.calls ++ [.recv]) [.recv, .close] (by simp [call, close])
  exact nomatch htail

/-- A loop that only gets bytes does not return. -/
theorem exists_not_gotBytes (h : drain (turn reply) recvs start 0 = (pure s : Exec _)) :
    ∃ n, ¬ GotBytes (recvs n) := by
  by_contra hnone
  obtain ⟨n, t, hd, ht⟩ := drain_eq_pure.mp h
  have hbytes : ∀ m, GotBytes (recvs m) := fun m => not_not.mp fun hm => hnone ⟨m, hm⟩
  obtain ⟨t', hd', hopen, -⟩ := exists_drained (n := n) reply fun m _ => hbytes m
  obtain rfl := hd.unique hd'
  obtain ⟨b, bs, hr⟩ := hbytes n
  rw [hr, turn_bytes hopen] at ht
  exact nomatch Exec.pure_inj.mp ht

theorem safe_iff (reply : Bool) (recvs : ℕ → Recv) :
    Safe (drain (turn reply) recvs start 0) ↔ FailsFirst recvs := by
  refine ⟨?_, safe_of_failsFirst reply⟩
  rintro ⟨s, hs, -, hlast⟩
  obtain ⟨n, hn, hmin⟩ := exists_first_outcome (exists_not_gotBytes hs)
  -- the first turn that gets no bytes decides
  have hbytes : ∀ m < n, GotBytes (recvs m) := fun m hm => not_not.mp (hmin m hm)
  cases hr : recvs n with
  | error again => exact ⟨n, again, hbytes, hr⟩
  | bytes data =>
    cases data with
    | nil => exact absurd hlast (not_closedLast_of_end hbytes hr hs)
    | cons b bs => exact absurd ⟨b, bs, hr⟩ hn

/-- **When the loops are safe**: each of them returns, closes the descriptor at most once and calls
nothing with it afterwards, exactly if the first `recv` that returns no bytes fails. -/
theorem recv_safe_iff (recvs : ℕ → Recv) :
    (Safe (et recvs) ↔ FailsFirst recvs) ∧ (Safe (processTcpUdp recvs) ↔ FailsFirst recvs) :=
  ⟨safe_iff false recvs, safe_iff true recvs⟩

/-- A client that closes its end at once: its descriptor is used after it has been closed. -/
theorem not_recv_safe :
    ¬ (∀ recvs, Safe (et recvs)) ∧ ¬ ∀ recvs, Safe (processTcpUdp recvs) := by
  have h : ∀ reply, ¬ Safe (drain (turn reply) (fun _ => .bytes []) start 0) := by
    rintro reply ⟨s, hs, -, hlast⟩
    exact not_closedLast_of_end (n := 0) nofun rfl hs hlast
  exact ⟨fun hall => h false (hall _), fun hall => h true (hall _)⟩

/-! ### What the calls do -/

/-- The descriptors after a call with `fd`. -/
def effect (fd : ℕ) (clients : EdgeClients) : ClientCall → EdgeClients
  | .recv => clients
  | .send data => clients.send fd data
  | .close => clients.close fd

/-- The loop has made some calls, and these do to the descriptors what
`Candcpp.EdgeClients.recvLoop` does. -/
def Performs (e : Result RecvLoop) (s : RecvLoop) (fd : ℕ) (clients clients' : EdgeClients) :
    Prop :=
  ∃ calls t, e = (pure t : Exec _) ∧ t.calls = s.calls ++ calls ∧
    clients' = calls.foldl (effect fd) clients

variable {fd i : ℕ} {clients clients' : EdgeClients}

theorem performs_of_leave (calls : List ClientCall) (ht : turn reply s (recvs i) = pure (.leave s'))
    (hcalls : s'.calls = s.calls ++ calls) :
    Performs (drain (turn reply) recvs s i) s fd clients (calls.foldl (effect fd) clients) :=
  ⟨calls, s', drain_leave ht, hcalls, rfl⟩

theorem Performs.of_again {u : EdgeClients}
    (h : Performs (drain (turn reply) recvs s' (i + 1)) s' fd u clients') (calls : List ClientCall)
    (ht : turn reply s (recvs i) = pure (.again s')) (hcalls : s'.calls = s.calls ++ calls)
    (hu : u = calls.foldl (effect fd) clients) :
    Performs (drain (turn reply) recvs s i) s fd clients clients' := by
  obtain ⟨calls', t, hdrain, ht', hclients⟩ := h
  refine ⟨calls ++ calls', t, (drain_again ht).trans hdrain, ?_, ?_⟩
  · rw [ht', hcalls, List.append_assoc]
  · rw [List.foldl_append, ← hu, hclients]

theorem recvLoop_of_notMem (hfd : fd ∉ clients.opened) (reply : Bool) (rs : List Recv) :
    EdgeClients.recvLoop reply fd clients rs = clients.close fd := by
  match rs with
  | [] => rw [EdgeClients.recvLoop, if_neg hfd]
  | .error again :: rs => rw [EdgeClients.recvLoop, if_neg hfd]
  | .bytes [] :: rs => rw [EdgeClients.recvLoop, if_neg hfd]
  | .bytes (b :: bs) :: rs => rw [EdgeClients.recvLoop, if_neg hfd]

/-- **The loop over descriptors is this loop**: after the results of a list, `recv` would block. -/
theorem recvLoop_performs (rs : List Recv) (hr : ∀ k, recvs (i + k) = rs.getD k (.error true))
    (hopen : s.opened = true ↔ fd ∈ clients.opened) :
    Performs (drain (turn reply) recvs s i) s fd clients
      (EdgeClients.recvLoop reply fd clients rs) := by
  induction rs generalizing i s clients with
  | nil =>
    have h0 : recvs i = .error true := hr 0
    cases ho : s.opened with
    | true =>
      rw [EdgeClients.recvLoop, if_pos (hopen.mp ho)]
      exact performs_of_leave [.recv] (by rw [h0, turn_error ho]) rfl
    | false =>
      rw [recvLoop_of_notMem fun hfd => by simp [hopen.mpr hfd] at ho]
      exact performs_of_leave [.recv, .close] (turn_closed ho reply _) (by simp [call, close])
  | cons r rs ih =>
    have h0 : recvs i = r := hr 0
    have hrest : ∀ k, recvs (i + 1 + k) = rs.getD k (.error true) := fun k => by
      rw [Nat.add_assoc, Nat.add_comm 1 k]
      exact hr (k + 1)
    cases ho : s.opened with
    | false =>
      rw [recvLoop_of_notMem fun hfd => by simp [hopen.mpr hfd] at ho]
      exact performs_of_leave [.recv, .close] (turn_closed ho reply _) (by simp [call, close])
    | true =>
      have hfd := hopen.mp ho
      match r with
      | .error true =>
        rw [EdgeClients.recvLoop, if_pos hfd]
        exact performs_of_leave [.recv] (by rw [h0, turn_error ho]) rfl
      | .error false =>
        rw [EdgeClients.recvLoop, if_pos hfd]
        exact performs_of_leave [.recv, .close] (by rw [h0, turn_error ho])
          (by simp [call, close])
      | .bytes [] =>
        rw [EdgeClients.recvLoop, if_pos hfd]
        refine (ih hrest ?_).of_again [.recv, .close] (by rw [h0, turn_end ho])
          (by simp [call, close]) rfl
        simp [close, EdgeClients.close]
      | .bytes (b :: bs) =>
        rw [EdgeClients.recvLoop, if_pos hfd]
        have hturn := turn_bytes ho reply b bs
        rw [← h0] at hturn
        cases reply with
        | true =>
          have hrest := ih (s := (s.call .recv).call (.send (b :: bs))) hrest
            (iff_of_true ho (show fd ∈ (clients.send fd (b :: bs)).opened from hfd))
          exact hrest.of_again [.recv, .send (b :: bs)] hturn (by simp [call]) rfl
        | false =>
          have hrest := ih (s := s.call .recv) hrest (iff_of_true ho hfd)
          exact hrest.of_again [.recv] hturn rfl rfl

end RecvLoop

end Candcpp
