import Candcpp.Net.Chatroom

/-!
# The tables of the chat room

What `Candcpp.Chatroom` keeps about its two arrays, whatever the clients do.

First the code: where `fds` has as many clients as `user_counter` says
(`Candcpp.Chatroom.Sized`), no access is outside of the array, and each branch of the `for`
loop returns a state that is written down here. Then the invariant
`Candcpp.Chatroom.Table`: which descriptors are in `fds`, which flags are registered for
them, and when a client has a text to get.

| branch | what it returns | the invariant |
|---|---|---|
| `Candcpp.Chatroom.accept` | `Candcpp.Chatroom.Sized.accept_cases` | `Candcpp.Chatroom.Table.enroll` |
| `Candcpp.Chatroom.remove` | `Candcpp.Chatroom.Sized.remove_eq` | `Candcpp.Chatroom.Table.removed` |
| `Candcpp.Chatroom.receive` | `Candcpp.Chatroom.Sized.receive_text` | `Candcpp.Chatroom.Table.spread` |
| `Candcpp.Chatroom.deliver` | `Candcpp.Chatroom.Sized.deliver_some` | `Candcpp.Chatroom.Table.delivered` |
-/

namespace Candcpp

namespace Chatroom

open Cpp

/-- The descriptor at a position of `fds`. -/
def fdAt (s : Chatroom) (k : ℕ) : ℤ := (s.fds.data k).fd

/-- What the last `poll` has reported at a position of `fds`. -/
def reportAt (s : Chatroom) (k : ℕ) : ℤ × PollFlags := ((s.fds.data k).fd, (s.fds.data k).revents)

/-- The descriptors of the clients in `fds`. -/
def fdList (s : Chatroom) (n : ℕ) : List ℤ := entries s.fdAt 1 n

/-- There are `n` clients in `fds`. -/
structure Sized (s : Chatroom) (n : ℕ) : Prop where
  size : s.fds.size = userLimit + 1
  counter : s.userCounter = n
  limit : n ≤ userLimit

/-! ### What the branches return -/

section Branches

variable {s s' : Chatroom} {n k : ℕ}

/-- The state after a new client has been put behind the last one. -/
def enroll (s : Chatroom) (n : ℕ) (connfd : ℤ) : Chatroom :=
  { s.next 0 with
    userCounter := (n + 1 : ℕ)
    fds :=
      { s.fds with
        data := Function.update s.fds.data (n + 1)
          { fd := connfd
            events := { pollin := true, pollrdhup := true, pollerr := true }
            revents := {} } }
    clients := s.clients ++ [connfd] }

/-- The state after the client at position `k` of `n + 1` has been removed. -/
def removed (s : Chatroom) (n k : ℕ) : Chatroom :=
  { s with
    loop := .scanning k
    users := Function.update s.users (s.fdAt k) (s.users (s.fdAt (n + 1)))
    fds := { s.fds with data := Function.update s.fds.data k (s.fds.data (n + 1)) }
    userCounter := n
    clients := s.clients.erase (s.fdAt k)
    due := Function.update s.due (s.fdAt k) [] }

/-- The state after the buffer of a client has been cleared and read into. -/
def filled (s : Chatroom) (connfd : ℤ) (bytes : List UInt8) : Chatroom :=
  { s with
    users := Function.update s.users connfd
      { s.users connfd with buf := bytes ++ cleared.drop bytes.length } }

/-- The state after the text of `connfd` has been announced to the other clients at the
positions `1, …, n`. -/
def spread (s : Chatroom) (n : ℕ) (connfd : ℤ) (text : List UInt8) : Chatroom :=
  { s with
    fds :=
      { s.fds with
        data := fun k =>
          if 1 ≤ k ∧ k ≤ n ∧ s.fdAt k ≠ connfd then
            { s.fds.data k with
              events := { (s.fds.data k).events with pollin := false, pollout := true } }
          else
            s.fds.data k }
    users := fun fd =>
      if fd ∈ s.fdList n ∧ fd ≠ connfd then
        { s.users fd with writeBuf := some connfd }
      else
        s.users fd
    due := fun fd =>
      if fd ∈ s.fdList n ∧ fd ≠ connfd then s.due fd ++ [text] else s.due fd }

/-- The state after the client at position `k` has been sent the text `bytes`. -/
def delivered (s : Chatroom) (k : ℕ) (bytes : List UInt8) : Chatroom :=
  { s.next k with
    users := Function.update s.users (s.fdAt k) { s.users (s.fdAt k) with writeBuf := none }
    fds :=
      { s.fds with
        data := Function.update s.fds.data k
          { s.fds.data k with
            events := { (s.fds.data k).events with pollout := false, pollin := true } } }
    due := Function.update s.due (s.fdAt k) []
    sent := s.sent ++ [{ connfd := s.fdAt k, bytes := bytes, due := s.due (s.fdAt k) }] }

theorem Sized.getInt (h : s.Sized n) (hk : k ≤ n) : s.fds.getInt k = pure (s.fds.data k) :=
  Arr.getInt_eq (by rw [h.size]; exact Nat.lt_succ_of_le (hk.trans h.limit))

theorem Sized.putInt (h : s.Sized n) (hk : k ≤ userLimit) (slot : PollFd) :
    s.fds.putInt k slot = pure { s.fds with data := Function.update s.fds.data k slot } :=
  Arr.putInt_eq (by rw [h.size]; exact Nat.lt_succ_of_le hk) slot

/-- A new client is admitted, or there is none, or it is turned away. -/
theorem Sized.accept_cases (h : s.Sized n) (connfd : ℤ) :
    s.accept 0 connfd = pure (s.next 0) ∨
      (0 ≤ connfd ∧ n < userLimit ∧ s.accept 0 connfd = pure (s.enroll n connfd)) := by
  rw [accept]
  split
  · exact Or.inl rfl
  · rename_i hfd
    split
    · exact Or.inl rfl
    · rename_i hroom
      rw [h.counter] at hroom
      refine Or.inr ⟨by omega, by omega, ?_⟩
      have hput := h.putInt (k := n + 1) (by omega)
        { fd := connfd
          events := { pollin := true, pollrdhup := true, pollerr := true }
          revents := {} }
      rw [h.counter]
      exact (congrArg (· >>= _) hput).trans (pure_bind _ _)

/-- A client leaves, at whatever position. -/
theorem Sized.remove_eq (h : s.Sized (n + 1)) (hk : k ≤ n + 1) :
    s.remove k = pure (s.removed n k) := by
  have hget := h.getInt hk
  have hlast := h.getInt (le_refl (n + 1))
  have hput := h.putInt (hk.trans h.limit) (s.fds.data (n + 1))
  have hcounter : ((n + 1 : ℕ) : ℤ) - 1 = n := by omega
  have hback : (k : ℤ) - 1 + 1 = k := Int.sub_add_cancel ..
  rw [remove, hget, pure_bind, h.counter, hlast, pure_bind, hput, pure_bind, hcounter, next, hback]
  rfl

theorem Sized.filled (h : s.Sized n) (connfd : ℤ) (bytes : List UInt8) :
    (s.filled connfd bytes).Sized n :=
  ⟨h.size, h.counter, h.limit⟩

theorem spread_data (connfd : ℤ) (text : List UInt8) (k : ℕ) :
    (s.spread n connfd text).fds.data k =
      if 1 ≤ k ∧ k ≤ n ∧ s.fdAt k ≠ connfd then
        { s.fds.data k with
          events := { (s.fds.data k).events with pollin := false, pollout := true } }
      else
        s.fds.data k := rfl

theorem spread_users (connfd : ℤ) (text : List UInt8) (fd : ℤ) :
    (s.spread n connfd text).users fd =
      if fd ∈ s.fdList n ∧ fd ≠ connfd then
        { s.users fd with writeBuf := some connfd }
      else
        s.users fd := rfl

theorem spread_due (connfd : ℤ) (text : List UInt8) (fd : ℤ) :
    (s.spread n connfd text).due fd =
      if fd ∈ s.fdList n ∧ fd ≠ connfd then s.due fd ++ [text] else s.due fd := rfl

/-- The state after the text has been announced, from what it is made of. -/
theorem spread_eq {connfd : ℤ} {text : List UInt8} {data : ℕ → PollFd} {users : ℤ → ClientData}
    {due : ℤ → List (List UInt8)}
    (hdata : ∀ j, (s.spread n connfd text).fds.data j = data j)
    (husers : ∀ fd, (s.spread n connfd text).users fd = users fd)
    (hdue : ∀ fd, (s.spread n connfd text).due fd = due fd) :
    s.spread n connfd text =
      { s with
        fds := { s.fds with data := data }
        users := users
        due := due } := by
  obtain rfl : _ = data := funext hdata
  obtain rfl : _ = users := funext husers
  obtain rfl : _ = due := funext hdue
  rfl

theorem spread_zero (connfd : ℤ) (text : List UInt8) : s.spread 0 connfd text = s := by
  have hnone : ∀ fd, fd ∉ s.fdList 0 := fun fd => by
    rw [fdList, entries_nil (by omega)]
    exact List.not_mem_nil
  refine spread_eq (fun j => ?_) (fun fd => ?_) fun fd => ?_
  · rw [spread_data, if_neg]
    rintro ⟨hj, hj', -⟩
    omega
  · rw [spread_users, if_neg fun hfd => hnone fd hfd.1]
  · rw [spread_due, if_neg fun hfd => hnone fd hfd.1]

theorem fdList_succ (s : Chatroom) (n : ℕ) : s.fdList (n + 1) = s.fdList n ++ [s.fdAt (n + 1)] :=
  entries_concat (by omega)

/-- The sender's own position is passed over. -/
theorem spread_sender {connfd : ℤ} (hfd : s.fdAt (n + 1) = connfd) (text : List UInt8) :
    s.spread (n + 1) connfd text = s.spread n connfd text := by
  have hmem : ∀ fd, (fd ∈ s.fdList (n + 1) ∧ fd ≠ connfd) = (fd ∈ s.fdList n ∧ fd ≠ connfd) := by
    intro fd
    rw [fdList_succ, List.mem_append, List.mem_singleton, hfd]
    exact propext ⟨fun h => ⟨h.1.resolve_right h.2, h.2⟩, fun h => ⟨Or.inl h.1, h.2⟩⟩
  refine spread_eq (fun j => ?_) (fun fd => ?_) fun fd => ?_
  · rw [spread_data]
    refine if_congr ?_ rfl rfl
    constructor
    · rintro ⟨hj, hle, hne⟩
      have hlast : j ≠ n + 1 := by
        rintro rfl
        exact hne hfd
      exact ⟨hj, by omega, hne⟩
    · rintro ⟨hj, hle, hne⟩
      exact ⟨hj, by omega, hne⟩
  · rw [spread_users]
    simp only [hmem]
  · rw [spread_due]
    simp only [hmem]

/-- The next position is that of another client. -/
theorem spread_succ {connfd : ℤ} (hfd : s.fdAt (n + 1) ≠ connfd) (text : List UInt8) :
    s.spread (n + 1) connfd text =
      { s.spread n connfd text with
        fds :=
          { s.fds with
            data := Function.update (s.spread n connfd text).fds.data (n + 1)
              { s.fds.data (n + 1) with
                events := { (s.fds.data (n + 1)).events with pollin := false, pollout := true } } }
        users := Function.update (s.spread n connfd text).users (s.fdAt (n + 1))
          { s.users (s.fdAt (n + 1)) with writeBuf := some connfd }
        due := Function.update (s.spread n connfd text).due (s.fdAt (n + 1))
          (s.due (s.fdAt (n + 1)) ++ [text]) } := by
  -- what differs between the two sides is at the last slot, and at its descriptor
  have hmem : ∀ fd, fd ∈ s.fdList (n + 1) ↔ fd ∈ s.fdList n ∨ fd = s.fdAt (n + 1) := by
    intro fd
    rw [fdList_succ, List.mem_append, List.mem_singleton]
  refine spread_eq (fun j => ?_) (fun fd => ?_) fun fd => ?_
  · rw [spread_data]
    by_cases hj : j = n + 1
    · subst hj
      rw [Function.update_self, if_pos ⟨by omega, le_rfl, hfd⟩]
    · rw [Function.update_of_ne hj, spread_data]
      refine if_congr (and_congr_right fun _ => and_congr_left fun _ => ?_) rfl rfl
      omega
  · rw [spread_users]
    by_cases hj : fd = s.fdAt (n + 1)
    · subst hj
      rw [Function.update_self, if_pos ⟨(hmem _).mpr (Or.inr rfl), hfd⟩]
    · rw [Function.update_of_ne hj, spread_users]
      simp only [hmem, hj, or_false]
  · rw [spread_due]
    by_cases hj : fd = s.fdAt (n + 1)
    · subst hj
      rw [Function.update_self, if_pos ⟨(hmem _).mpr (Or.inr rfl), hfd⟩]
    · rw [Function.update_of_ne hj, spread_due]
      simp only [hmem, hj, or_false]

/-- **The text is announced to everybody but its sender.** -/
theorem Sized.broadcast_eq (h : s.Sized n) (connfd : ℤ) (text : List UInt8)
    (hnodup : (s.fdList n).Nodup) {m : ℕ} (hm : m ≤ n) :
    broadcast connfd text s m = pure (s.spread m connfd text) := by
  induction m with
  | zero => exact congrArg pure (spread_zero connfd text).symm
  | succ m ih =>
    -- the positions passed already keep their descriptors, and this one all it has
    have hslot : (s.spread m connfd text).fds.data (m + 1) = s.fds.data (m + 1) :=
      if_neg fun hj => by omega
    have hsized : (s.spread m connfd text).Sized n := ⟨h.size, h.counter, h.limit⟩
    have hget := hsized.getInt (k := m + 1) hm
    rw [hslot] at hget
    have hnew : s.fdAt (m + 1) ∉ s.fdList m := by
      have hsub : (s.fdList (m + 1)).Nodup := by
        rw [fdList, ← entries_append (Nat.le_add_left 1 (m + 1)) hm] at hnodup
        exact (List.nodup_append.mp hnodup).1
      rw [fdList_succ] at hsub
      exact fun hmem => (List.nodup_append.mp hsub).2.2 _ hmem _ (List.mem_singleton_self _) rfl
    have husers : (s.spread m connfd text).users (s.fdAt (m + 1)) = s.users (s.fdAt (m + 1)) := by
      rw [spread_users, if_neg fun hfd => hnew hfd.1]
    have hdue : (s.spread m connfd text).due (s.fdAt (m + 1)) = s.due (s.fdAt (m + 1)) := by
      rw [spread_due, if_neg fun hfd => hnew hfd.1]
    rw [broadcast, ih (by omega), pure_bind]
    refine (congrArg (· >>= _) hget).trans ((pure_bind _ _).trans ?_)
    by_cases hfd : s.fdAt (m + 1) = connfd
    · rw [spread_sender hfd]
      exact if_pos hfd
    · have hput := hsized.putInt (k := m + 1) (hm.trans h.limit)
        { s.fds.data (m + 1) with
          events := { (s.fds.data (m + 1)).events with pollin := false, pollout := true } }
      refine (if_neg hfd).trans ?_
      refine (congrArg (· >>= _) hput).trans ((pure_bind _ _).trans (congrArg pure ?_))
      rw [spread_succ hfd, ← husers, ← hdue]
      rfl

/-- The read of a client fails. -/
theorem Sized.receive_none (h : s.Sized (n + 1)) (hk : k ≤ n + 1) :
    s.receive k none = pure ((s.filled (s.fdAt k) []).removed n k) := by
  rw [receive, h.getInt hk, pure_bind]
  exact (h.filled (s.fdAt k) []).remove_eq hk

/-- The read of a client returns nothing. -/
theorem Sized.receive_nil (h : s.Sized n) (hk : k ≤ n) :
    s.receive k (some []) = pure ((s.filled (s.fdAt k) []).next k) := by
  rw [receive, h.getInt hk, pure_bind]
  rfl

/-- The read of a client returns a text. -/
theorem Sized.receive_text (h : s.Sized n) (hk : k ≤ n) (hnodup : (s.fdList n).Nodup) (b : UInt8)
    (bytes : List UInt8) :
    s.receive k (some (b :: bytes)) =
      pure (((s.filled (s.fdAt k) (b :: bytes)).spread n (s.fdAt k) (b :: bytes)).next k) := by
  have hfilled := h.filled (s.fdAt k) (b :: bytes)
  have hspread := hfilled.broadcast_eq (s.fdAt k) (b :: bytes) hnodup le_rfl
  have hcount : (s.filled (s.fdAt k) (b :: bytes)).userCounter.toNat = n := by
    rw [hfilled.counter, Int.toNat_natCast]
  rw [← hcount] at hspread
  rw [receive, h.getInt hk, pure_bind]
  refine (congrArg (· >>= _) hspread).trans ((pure_bind _ _).trans ?_)
  rw [hcount]

theorem cString_eq {buf : List UInt8} (h : 0 ∈ buf) :
    cString buf = pure (buf.takeWhile (· ≠ 0)) := if_pos h

/-- A client gets the text its `write_buf` points to. -/
theorem Sized.deliver_some (h : s.Sized n) (hk : k ≤ n) {sender : ℤ}
    (hbuf : (s.users (s.fdAt k)).writeBuf = some sender) (hzero : 0 ∈ (s.users sender).buf) :
    s.deliver k = pure (s.delivered k ((s.users sender).buf.takeWhile (· ≠ 0))) := by
  have hput := h.putInt (hk.trans h.limit)
    { s.fds.data k with
      events := { (s.fds.data k).events with pollout := false, pollin := true } }
  rw [fdAt] at hbuf
  simp only [deliver, h.getInt hk, pure_bind, hbuf, cString_eq hzero]
  exact (congrArg (· >>= _) hput).trans (pure_bind _ _)

end Branches

/-! ### The invariant of the tables -/

/-- **A client in `fds`** is waited for to be readable or to be writable, not both. It is
waited for to be writable exactly when it has a text to get, and then its `write_buf` is not
null. -/
structure ClientOk (slot : PollFd) (c : ClientData) (due : List (List UInt8)) : Prop where
  mask : slot.events.pollin = !slot.events.pollout
  pending : slot.events.pollout = true → c.writeBuf ≠ none
  owed : slot.events.pollout = true ↔ due ≠ []

/-- **The tables of the chat room**, with `n` clients in `fds`. -/
structure Table (s : Chatroom) (n : ℕ) : Prop extends Sized s n where
  listener : s.fdAt 0 = s.listenfd
  listening : (s.fds.data 0).events.pollout = false ∧ (s.fds.data 0).events.pollrdhup = false
  distinct : (s.fdList n).Nodup
  clients : s.clients.Perm (s.fdList n)
  notClient : s.listenfd ∉ s.clients
  slots : ∀ k, 1 ≤ k → k ≤ n →
    ClientOk (s.fds.data k) (s.users (s.fdAt k)) (s.due (s.fdAt k))
  /-- A descriptor that is not that of a client has no text to get. -/
  idle : ∀ fd, fd ∉ s.clients → s.due fd = []
  /-- Every buffer ends with a zero byte, so that `strlen` stops in it. -/
  terminated : ∀ fd, 0 ∈ (s.users fd).buf

variable {s : Chatroom} {n k : ℕ}

theorem table_create (listenfd : ℤ) : (create listenfd).Table 0 where
  size := rfl
  counter := rfl
  limit := Nat.zero_le _
  listener := rfl
  listening := ⟨rfl, rfl⟩
  distinct := List.nodup_nil
  clients := .refl _
  notClient := List.not_mem_nil
  slots := fun k hk hk' => by omega
  idle := fun _ _ => rfl
  terminated := fun _ => List.mem_replicate.mpr ⟨by decide, rfl⟩

theorem Table.mem_clients (h : s.Table n) (hk : 1 ≤ k) (hkn : k ≤ n) : s.fdAt k ∈ s.clients :=
  h.clients.mem_iff.mpr (mem_entries.mpr ⟨k, hk, hkn, rfl⟩)

/-- Different positions have different clients. -/
theorem Table.fdAt_inj (h : s.Table n) {j : ℕ} (hj : 1 ≤ j) (hjn : j ≤ n) (hk : 1 ≤ k)
    (hkn : k ≤ n) (hjk : s.fdAt j = s.fdAt k) : j = k :=
  entries_inj h.distinct hj hjn hk hkn hjk

/-- The loop goes on. -/
theorem Table.next (h : s.Table n) (i : ℤ) : (s.next i).Table n := { h with }

/-- A buffer that is cleared and then read into still ends with a zero byte. -/
theorem mem_filled {bytes : List UInt8} (h : bytes.length ≤ bufferSize - 1) :
    0 ∈ bytes ++ cleared.drop bytes.length := by
  refine List.mem_append_right _ ?_
  rw [cleared, List.drop_replicate]
  refine List.mem_replicate.mpr ⟨?_, rfl⟩
  have hsize : bufferSize = 64 := rfl
  omega

/-- A client's buffer is read into. -/
theorem Table.filled (h : s.Table n) (connfd : ℤ) (bytes : List UInt8)
    (hbytes : bytes.length ≤ bufferSize - 1) : (s.filled connfd bytes).Table n := by
  have hbuf : ∀ fd, ((s.filled connfd bytes).users fd).writeBuf = (s.users fd).writeBuf := by
    intro fd
    change (Function.update s.users connfd _ fd).writeBuf = _
    by_cases hfd : fd = connfd
    · rw [hfd, Function.update_self]
    · rw [Function.update_of_ne hfd]
  refine { h with slots := fun k hk hkn => ?_, terminated := fun fd => ?_ }
  · obtain ⟨hmask, hpending, howed⟩ := h.slots k hk hkn
    exact ⟨hmask, fun hout => (hbuf _).trans_ne (hpending hout), howed⟩
  · change 0 ∈ (Function.update s.users connfd _ fd).buf
    by_cases hfd : fd = connfd
    · rw [hfd, Function.update_self]
      exact mem_filled hbytes
    · rw [Function.update_of_ne hfd]
      exact h.terminated fd

theorem fdAt_enroll (s : Chatroom) (n : ℕ) (connfd : ℤ) :
    (s.enroll n connfd).fdAt = Function.update s.fdAt (n + 1) connfd := by
  funext k
  change (Function.update s.fds.data (n + 1) _ k).fd = _
  by_cases hk : k = n + 1
  · rw [hk, Function.update_self, Function.update_self]
  · rw [Function.update_of_ne hk, Function.update_of_ne hk]
    rfl

theorem fdList_enroll (s : Chatroom) (n : ℕ) (connfd : ℤ) :
    (s.enroll n connfd).fdList (n + 1) = s.fdList n ++ [connfd] := by
  rw [fdList, fdAt_enroll]
  exact entries_push (by omega) connfd

/-- **A client is admitted.** -/
theorem Table.enroll (h : s.Table n) (hn : n < userLimit) {connfd : ℤ}
    (hlisten : connfd ≠ s.listenfd) (hnew : connfd ∉ s.clients) :
    (s.enroll n connfd).Table (n + 1) := by
  have hold : ∀ k, k ≠ n + 1 → (s.enroll n connfd).fds.data k = s.fds.data k := fun k hk =>
    Function.update_of_ne hk _ _
  have hfd : ∀ k, k ≠ n + 1 → (s.enroll n connfd).fdAt k = s.fdAt k := fun k hk => by
    rw [fdAt_enroll, Function.update_of_ne hk]
  refine
    { size := h.size
      counter := rfl
      limit := hn
      listener := (hfd 0 (by omega)).trans h.listener
      listening := by
        rw [hold 0 (by omega)]
        exact h.listening
      distinct := ?_
      clients := ?_
      notClient := ?_
      slots := fun k hk hkn => ?_
      idle := fun fd hfd => h.idle fd fun hmem => hfd (List.mem_append_left _ hmem)
      terminated := h.terminated }
  · rw [fdList_enroll]
    refine List.nodup_append.mpr ⟨h.distinct, List.nodup_singleton _, ?_⟩
    rintro fd hmem fd' hmem' rfl
    rw [List.mem_singleton.mp hmem'] at hmem
    exact hnew (h.clients.mem_iff.mpr hmem)
  · rw [fdList_enroll]
    exact h.clients.append_right [connfd]
  · rintro hmem
    rcases List.mem_append.mp hmem with hmem | hmem
    · exact h.notClient hmem
    · exact hlisten (List.mem_singleton.mp hmem).symm
  · by_cases hlast : k = n + 1
    · -- the new client, which has no text to get
      subst hlast
      have hslot : (s.enroll n connfd).fds.data (n + 1) =
          { fd := connfd
            events := { pollin := true, pollrdhup := true, pollerr := true }
            revents := {} } := Function.update_self ..
      rw [fdAt, hslot]
      exact ⟨rfl, by rintro ⟨⟩, iff_of_false (by rintro ⟨⟩) fun hdue => hdue (h.idle _ hnew)⟩
    · rw [hold k hlast, hfd k hlast]
      exact h.slots k hk (by omega)

theorem fdAt_removed (s : Chatroom) (n k : ℕ) :
    (s.removed n k).fdAt = Function.update s.fdAt k (s.fdAt (n + 1)) := by
  funext j
  change (Function.update s.fds.data k _ j).fd = _
  by_cases hj : j = k
  · rw [hj, Function.update_self, Function.update_self]
    rfl
  · rw [Function.update_of_ne hj, Function.update_of_ne hj]
    rfl

/-- A client that is left is one that has been there, at another position than the client
removed. -/
theorem data_removed (s : Chatroom) {n k j : ℕ} (hjn : j ≤ n) :
    ∃ m, m ≠ k ∧ j ≤ m ∧ m ≤ n + 1 ∧ (s.removed n k).fds.data j = s.fds.data m := by
  by_cases hjk : j = k
  · exact ⟨n + 1, by omega, by omega, le_rfl, by rw [hjk]; exact Function.update_self ..⟩
  · exact ⟨j, hjk, le_rfl, by omega, Function.update_of_ne hjk _ _⟩

/-- **A client is removed**, and the last one has taken its place. -/
theorem Table.removed (h : s.Table (n + 1)) (hk : 1 ≤ k) (hkn : k ≤ n + 1) :
    (s.removed n k).Table n := by
  have hperm : (s.fdAt k :: (s.removed n k).fdList n).Perm (s.fdList (n + 1)) := by
    rw [fdList, fdAt_removed]
    exact entries_remove_perm hk hkn
  -- the descriptors that are left are those before, without the one removed
  have hnodup := hperm.nodup_iff.mpr h.distinct
  have hclients := (h.clients.trans hperm.symm).erase (s.fdAt k)
  rw [List.erase_cons_head] at hclients
  have hzero : (s.removed n k).fds.data 0 = s.fds.data 0 :=
    Function.update_of_ne (by omega) _ _
  refine
    { size := h.size
      counter := rfl
      limit := (Nat.le_succ n).trans h.limit
      listener := ?_
      listening := ?_
      distinct := (List.nodup_cons.mp hnodup).2
      clients := hclients
      notClient := fun hmem => h.notClient (List.mem_of_mem_erase hmem)
      slots := fun j hj hjn => ?_
      idle := fun fd hfd => ?_
      terminated := fun fd => ?_ }
  · rw [fdAt, hzero]
    exact h.listener
  · rw [hzero]
    exact h.listening
  -- the slot `j` holds the client of a slot `m` other than `k`, whose data are not touched
  · obtain ⟨m, hmk, hjm, hmn, hdata⟩ := s.data_removed (k := k) hjn
    have hm : 1 ≤ m := hj.trans hjm
    have hne : s.fdAt m ≠ s.fdAt k := fun heq => hmk (h.fdAt_inj hm hmn hk hkn heq)
    have husers : (s.removed n k).users (s.fdAt m) = s.users (s.fdAt m) :=
      Function.update_of_ne hne _ _
    have hdue : (s.removed n k).due (s.fdAt m) = s.due (s.fdAt m) :=
      Function.update_of_ne hne _ _
    rw [fdAt, hdata]
    change ClientOk _ ((s.removed n k).users (s.fdAt m)) ((s.removed n k).due (s.fdAt m))
    rw [husers, hdue]
    exact h.slots m hm hmn
  · change Function.update s.due (s.fdAt k) [] fd = []
    by_cases hfdk : fd = s.fdAt k
    · rw [hfdk, Function.update_self]
    · rw [Function.update_of_ne hfdk]
      exact h.idle fd fun hmem => hfd ((List.mem_erase_of_ne hfdk).mpr hmem)
  · change 0 ∈ (Function.update s.users (s.fdAt k) _ fd).buf
    by_cases hfdk : fd = s.fdAt k
    · rw [hfdk, Function.update_self]
      exact h.terminated _
    · rw [Function.update_of_ne hfdk]
      exact h.terminated fd

/-- A loop that changes flags changes no descriptor. -/
theorem fdAt_spread (s : Chatroom) (n : ℕ) (connfd : ℤ) (text : List UInt8) :
    (s.spread n connfd text).fdAt = s.fdAt := by
  funext k
  rw [fdAt, spread_data]
  split <;> rfl

/-- **A text is announced.** -/
theorem Table.spread (h : s.Table n) (connfd : ℤ) (text : List UInt8) :
    (s.spread n connfd text).Table n := by
  have hzero : (s.spread n connfd text).fds.data 0 = s.fds.data 0 :=
    (spread_data ..).trans (if_neg fun hk => by omega)
  have hlist : (s.spread n connfd text).fdList n = s.fdList n := by
    rw [fdList, fdAt_spread, fdList]
  refine
    { size := h.size
      counter := h.counter
      limit := h.limit
      listener := ?_
      listening := ?_
      distinct := hlist ▸ h.distinct
      clients := hlist ▸ h.clients
      notClient := h.notClient
      slots := fun k hk hkn => ?_
      idle := fun fd hfd => ?_
      terminated := fun fd => ?_ }
  · rw [fdAt, hzero]
    exact h.listener
  · rw [hzero]
    exact h.listening
  · have hmem : s.fdAt k ∈ s.fdList n := mem_entries.mpr ⟨k, hk, hkn, rfl⟩
    rw [fdAt_spread, spread_data, spread_users, spread_due]
    by_cases hfd : s.fdAt k = connfd
    · -- the sender
      rw [if_neg fun hcond => hcond.2.2 hfd, if_neg fun hcond => hcond.2 hfd,
        if_neg fun hcond => hcond.2 hfd]
      exact h.slots k hk hkn
    · rw [if_pos ⟨hk, hkn, hfd⟩, if_pos ⟨hmem, hfd⟩, if_pos ⟨hmem, hfd⟩]
      exact ⟨rfl, fun _ => by rintro ⟨⟩, iff_of_true rfl (by simp)⟩
  · rw [spread_due, if_neg fun hcond => hfd (h.clients.mem_iff.mpr hcond.1)]
    exact h.idle fd hfd
  · rw [spread_users]
    split <;> exact h.terminated fd

theorem fdAt_delivered (s : Chatroom) (k : ℕ) (bytes : List UInt8) :
    (s.delivered k bytes).fdAt = s.fdAt := by
  funext j
  change (Function.update s.fds.data k _ j).fd = _
  by_cases hj : j = k
  · rw [hj, Function.update_self]
    rfl
  · rw [Function.update_of_ne hj]
    rfl

/-- **A text is sent.** -/
theorem Table.delivered (h : s.Table n) (hk : 1 ≤ k) (hkn : k ≤ n) (bytes : List UInt8) :
    (s.delivered k bytes).Table n := by
  have hzero : (s.delivered k bytes).fds.data 0 = s.fds.data 0 :=
    Function.update_of_ne (by omega) _ _
  have hlist : (s.delivered k bytes).fdList n = s.fdList n := by
    rw [fdList, fdAt_delivered, fdList]
  refine
    { size := h.size
      counter := h.counter
      limit := h.limit
      listener := ?_
      listening := ?_
      distinct := hlist ▸ h.distinct
      clients := hlist ▸ h.clients
      notClient := h.notClient
      slots := fun j hj hjn => ?_
      idle := fun fd hfd => ?_
      terminated := fun fd => ?_ }
  · rw [fdAt, hzero]
    exact h.listener
  · rw [hzero]
    exact h.listening
  · rw [fdAt_delivered]
    change ClientOk (Function.update s.fds.data k _ j) (Function.update s.users (s.fdAt k) _ _)
      (Function.update s.due (s.fdAt k) [] _)
    by_cases hjk : j = k
    · -- the client that has got its text
      subst hjk
      rw [Function.update_self, Function.update_self, Function.update_self]
      exact ⟨rfl, by rintro ⟨⟩, iff_of_false (by rintro ⟨⟩) fun hdue => hdue rfl⟩
    · have hne : s.fdAt j ≠ s.fdAt k := fun heq => hjk (h.fdAt_inj hj hjn hk hkn heq)
      rw [Function.update_of_ne hjk, Function.update_of_ne hne, Function.update_of_ne hne]
      exact h.slots j hj hjn
  · change Function.update s.due (s.fdAt k) [] fd = []
    by_cases hfdk : fd = s.fdAt k
    · rw [hfdk, Function.update_self]
    · rw [Function.update_of_ne hfdk]
      exact h.idle fd hfd
  · change 0 ∈ (Function.update s.users (s.fdAt k) _ fd).buf
    by_cases hfdk : fd = s.fdAt k
    · rw [hfdk, Function.update_self]
      exact h.terminated _
    · rw [Function.update_of_ne hfdk]
      exact h.terminated fd

end Chatroom

end Candcpp
