import Candcpp.Net.ChatroomRuns

/-!
# What the clients of the chat room are sent

A text is not copied for its receivers: each of them has one pointer, into the buffer of the
sender. So the text that a client is sent may be another one than it should have got, or be
missing, and this file says when.

| what goes wrong | unless |
|---|---|
| a buffer is written while somebody's `write_buf` points to it | `Candcpp.Chatroom.Undisturbed` |
| a text has a zero byte, where `strlen` stops | `Candcpp.Chatroom.Textual` |
| a client that has a text to get is given another one | `Candcpp.Chatroom.Settled` |

Where the steps of a run meet the first two conditions, everything sent is the text received
last (`Candcpp.Chatroom.run_sent`); where they meet all three, every text received is sent to
each client that stays (`Candcpp.Chatroom.run_relayed`). Short runs in which they do not are
`Candcpp.Chatroom.not_sent` and `Candcpp.Chatroom.not_relayed`.
-/

namespace Candcpp

namespace Chatroom

open Cpp

/-! ### The conditions -/

/-- Some client is waited for to be writable, and its `write_buf` points into the buffer of
`fd`. -/
def Awaited (s : Chatroom) (fd : ℤ) : Prop :=
  ∃ j < s.userCounter.toNat + 1, 1 ≤ j ∧ (s.fds.data j).events.pollout = true ∧
    (s.users (s.fdAt j)).writeBuf = some fd

/-- What is said of the client that a step examines, and of what the system calls return. -/
def AtClient (s : Chatroom) (P : ℕ → Outcomes → Prop) : PollLoop → Act → Prop
  | .scanning i, .pass o => 1 ≤ i → i ≤ s.userCounter → P i.toNat o
  | _, _ => True

/-- **No buffer is written that is still to be sent from**: a client whose buffer is awaited is
not read from, and leaves only from the last position, where its buffer is copied onto itself. -/
def Undisturbed (s : Chatroom) (a : Act) : Prop :=
  s.AtClient
    (fun k _ => s.Awaited (s.fdAt k) → ¬s.Reads k ∧ (s.Leaves k → k = s.userCounter.toNat))
    s.loop a

/-- **No zero byte** is received for others. -/
def Textual (s : Chatroom) (a : Act) : Prop :=
  s.AtClient (fun k o => s.Reads k → 1 < s.userCounter → 0 ∉ o.received.getD []) s.loop a

/-- **A text is received** only while no other client has one to get. -/
def Settled (s : Chatroom) (a : Act) : Prop :=
  s.AtClient
    (fun k o => s.Reads k → o.received.getD [] ≠ [] →
      ∀ j < s.userCounter.toNat + 1, 1 ≤ j → j ≠ k → (s.fds.data j).events.pollout = false)
    s.loop a

instance (s : Chatroom) (k : ℕ) : Decidable (s.Reads k) := inferInstanceAs (Decidable (_ ∧ _))

instance (s : Chatroom) (k : ℕ) : Decidable (s.Leaves k) := inferInstanceAs (Decidable (_ ∧ _))

instance (s : Chatroom) (fd : ℤ) : Decidable (s.Awaited fd) :=
  inferInstanceAs (Decidable (∃ j < _, _))

instance (s : Chatroom) (P : ℕ → Outcomes → Prop) [∀ k o, Decidable (P k o)] :
    (l : PollLoop) → (a : Act) → Decidable (s.AtClient P l a)
  | .scanning _, .pass _ => inferInstanceAs (Decidable (_ → _ → _))
  | .scanning _, .pollFails => inferInstanceAs (Decidable True)
  | .scanning _, .poll _ => inferInstanceAs (Decidable True)
  | .polling, _ => inferInstanceAs (Decidable True)
  | .stopped, _ => inferInstanceAs (Decidable True)

instance (s : Chatroom) (a : Act) : Decidable (s.Undisturbed a) :=
  inferInstanceAs (Decidable (s.AtClient _ _ _))

instance (s : Chatroom) (a : Act) : Decidable (s.Textual a) :=
  inferInstanceAs (Decidable (s.AtClient _ _ _))

instance (s : Chatroom) (a : Act) : Decidable (s.Settled a) :=
  inferInstanceAs (Decidable (s.AtClient _ _ _))

/-! ### The texts that are pointed to -/

/-- A text as `strlen` sees it. -/
def upToZero (bytes : List UInt8) : List UInt8 := bytes.takeWhile (· ≠ 0)

theorem upToZero_eq {bytes : List UInt8} (h : 0 ∉ bytes) : upToZero bytes = bytes := by
  refine List.takeWhile_eq_self_iff.mpr fun b hb => decide_eq_true ?_
  rintro rfl
  exact h hb

/-- What has been read into a cleared buffer is found in it again. -/
theorem upToZero_filled (bytes : List UInt8) :
    upToZero (bytes ++ cleared.drop bytes.length) = upToZero bytes := by
  rw [upToZero, List.takeWhile_append]
  split
  · rename_i hlen
    rw [cleared, List.drop_replicate, List.takeWhile_replicate, if_neg (by decide), List.append_nil]
    exact ((List.takeWhile_prefix _).eq_of_length hlen).symm
  · rfl

/-- The text that a client's `write_buf` points to. -/
def text (s : Chatroom) (fd : ℤ) : Option (List UInt8) :=
  (s.users fd).writeBuf.map fun sender => upToZero (s.users sender).buf

variable {s s' : Chatroom} {n k : ℕ} {a : Act}

theorem AtClient.apply {P : ℕ → Outcomes → Prop} {o : Outcomes}
    (h : s.AtClient P s.loop (.pass o)) (htable : s.Table n) (hloop : s.loop = .scanning k)
    (hk : 1 ≤ k) (hkn : k ≤ n) : P k o := by
  have hcounter := htable.counter
  rw [hloop] at h
  exact h (by omega) (by omega)

theorem Awaited.intro {fd : ℤ} {j : ℕ} (hj : 1 ≤ j) (hjn : (j : ℤ) ≤ s.userCounter)
    (hout : (s.fds.data j).events.pollout = true)
    (hbuf : (s.users (s.fdAt j)).writeBuf = some fd) : s.Awaited fd :=
  ⟨j, by omega, hj, hout, hbuf⟩

/-- A text stays what it is while the pointer to it and the buffer do. -/
theorem text_congr {fd : ℤ} (hbuf : (s'.users fd).writeBuf = (s.users fd).writeBuf)
    (hsender : ∀ sender, (s.users fd).writeBuf = some sender →
      (s'.users sender).buf = (s.users sender).buf) : s'.text fd = s.text fd := by
  rw [text, text, hbuf]
  refine Option.map_congr fun sender hs => ?_
  rw [hsender sender hs]

/-- **The last text a client should have got** is the one its `write_buf` points to. -/
def Kept (s : Chatroom) : Prop :=
  ∀ k : ℕ, 1 ≤ k → k ≤ s.userCounter → (s.fds.data k).events.pollout = true →
    ∃ text, (s.due (s.fdAt k)).getLast? = some text ∧ s.text (s.fdAt k) = some (upToZero text)

/-- Where the clients that are waited for to be writable were so before, and their texts are
the same, nothing is lost. -/
theorem Kept.frame (h : s.Kept)
    (hsame : ∀ k : ℕ, 1 ≤ k → k ≤ s'.userCounter → (s'.fds.data k).events.pollout = true →
      ∃ m : ℕ, 1 ≤ m ∧ m ≤ s.userCounter ∧ (s.fds.data m).events.pollout = true ∧
        s'.fdAt k = s.fdAt m ∧ s'.due (s.fdAt m) = s.due (s.fdAt m) ∧
        s'.text (s.fdAt m) = s.text (s.fdAt m)) : s'.Kept := by
  intro k hk hkn hout
  obtain ⟨m, hm, hmn, hmout, hfd, hdue, htext⟩ := hsame k hk hkn hout
  rw [hfd, hdue, htext]
  exact h m hm hmn hmout

theorem writeBuf_filled (connfd : ℤ) (bytes : List UInt8) (fd : ℤ) :
    ((s.filled connfd bytes).users fd).writeBuf = (s.users fd).writeBuf := by
  change (Function.update s.users connfd _ fd).writeBuf = _
  by_cases hfd : fd = connfd
  · rw [hfd, Function.update_self]
  · rw [Function.update_of_ne hfd]

/-- A buffer is read into that nobody awaits. -/
theorem Kept.filled (h : s.Kept) {connfd : ℤ} (hfree : ¬s.Awaited connfd) (bytes : List UInt8) :
    (s.filled connfd bytes).Kept := by
  refine h.frame fun k hk hkn hout => ⟨k, hk, hkn, hout, rfl, rfl, ?_⟩
  refine text_congr (writeBuf_filled connfd bytes _) fun sender hs => ?_
  have hne : sender ≠ connfd := by
    rintro rfl
    exact hfree (.intro hk hkn hout hs)
  change (Function.update s.users connfd _ sender).buf = _
  rw [Function.update_of_ne hne]

/-- A client leaves whose buffer nobody awaits, or which is the last one. -/
theorem Kept.removed (h : s.Kept) (htable : s.Table (n + 1)) (hk : 1 ≤ k) (hkn : k ≤ n + 1)
    (hfree : s.Awaited (s.fdAt k) → k = n + 1) : (s.removed n k).Kept := by
  have hcounter := htable.counter
  refine h.frame fun j hj hjn hout => ?_
  have hjn' : j ≤ n := Int.ofNat_le.mp hjn
  obtain ⟨m, hmk, hjm, hmn, hdata⟩ := s.data_removed (k := k) hjn'
  have hm : 1 ≤ m := hj.trans hjm
  have hne : s.fdAt m ≠ s.fdAt k := fun heq => hmk (htable.fdAt_inj hm hmn hk hkn heq)
  rw [hdata] at hout
  have husers : (s.removed n k).users (s.fdAt m) = s.users (s.fdAt m) :=
    Function.update_of_ne hne _ _
  refine ⟨m, hm, by omega, hout, congrArg PollFd.fd hdata, Function.update_of_ne hne _ _,
    text_congr (congrArg ClientData.writeBuf husers) fun sender hs => ?_⟩
  change (Function.update s.users (s.fdAt k) (s.users (s.fdAt (n + 1))) sender).buf = _
  by_cases hsender : sender = s.fdAt k
  · -- its buffer is awaited, so that it is the last one
    subst hsender
    rw [Function.update_self, hfree (.intro hm (by omega) hout hs)]
  · rw [Function.update_of_ne hsender]

/-- **A text is announced** that is in the buffer of its sender. -/
theorem Kept.spread (h : s.Kept) (htable : s.Table n) {connfd : ℤ} {bytes : List UInt8}
    (hbytes : upToZero (s.users connfd).buf = upToZero bytes) :
    (s.spread n connfd bytes).Kept := by
  have hbuf : ∀ fd, ((s.spread n connfd bytes).users fd).buf = (s.users fd).buf := by
    intro fd
    rw [spread_users]
    split <;> rfl
  intro k hk hkn hout
  have hkn' : k ≤ n := by
    have hcounter : s.userCounter = n := htable.counter
    have hle : (k : ℤ) ≤ s.userCounter := hkn
    omega
  have hmem : s.fdAt k ∈ s.fdList n := mem_entries.mpr ⟨k, hk, hkn', rfl⟩
  rw [fdAt_spread, spread_due]
  by_cases hfd : s.fdAt k = connfd
  · -- the sender has the text to get that it had before
    rw [spread_data, if_neg fun hcond => hcond.2.2 hfd] at hout
    rw [if_neg fun hcond => hcond.2 hfd, text_congr (s := s) ?_ fun sender _ => hbuf sender]
    · exact h k hk hkn hout
    · rw [spread_users, if_neg fun hcond => hcond.2 hfd]
  · refine ⟨bytes, by rw [if_pos ⟨hmem, hfd⟩, List.getLast?_concat], ?_⟩
    rw [text, spread_users, if_pos ⟨hmem, hfd⟩, Option.map_some, hbuf, hbytes]

/-- A text is sent. -/
theorem Kept.delivered (h : s.Kept) (htable : s.Table n) (hk : 1 ≤ k) (hkn : k ≤ n)
    (bytes : List UInt8) : (s.delivered k bytes).Kept := by
  have hcounter := htable.counter
  refine h.frame fun j hj hjn hout => ?_
  have hjn' : (j : ℤ) ≤ s.userCounter := hjn
  have hjk : j ≠ k := by
    rintro rfl
    change (Function.update s.fds.data j _ j).events.pollout = true at hout
    rw [Function.update_self] at hout
    cases hout
  have hne : s.fdAt j ≠ s.fdAt k := fun heq =>
    hjk (htable.fdAt_inj hj (by omega) hk hkn heq)
  have hdata : (s.delivered k bytes).fds.data j = s.fds.data j := Function.update_of_ne hjk _ _
  have husers : (s.delivered k bytes).users (s.fdAt j) = s.users (s.fdAt j) :=
    Function.update_of_ne hne _ _
  rw [hdata] at hout
  refine ⟨j, hj, hjn', hout, by rw [fdAt_delivered], Function.update_of_ne hne _ _,
    text_congr (congrArg ClientData.writeBuf husers) fun sender _ => ?_⟩
  change (Function.update s.users (s.fdAt k) _ sender).buf = _
  by_cases hsender : sender = s.fdAt k
  · rw [hsender, Function.update_self]
  · rw [Function.update_of_ne hsender]

theorem Kept.look (h : s.Kept) (k : ℕ) : (s.look k).Kept := h

/-- A client that is read from has nothing in its buffer that is still to be sent. -/
theorem Undisturbed.free {o : Outcomes} (hu : Undisturbed s (.pass o)) (htable : s.Table n)
    (hloop : s.loop = .scanning k) (hk : 1 ≤ k) (hkn : k ≤ n) (hreads : s.Reads k) :
    ¬s.Awaited (s.fdAt k) := fun hawaited =>
  (hu.apply htable hloop hk hkn hawaited).1 hreads

/-- **No step that disturbs nothing** loses a text that is still to be sent. -/
theorem Kept.moved (h : s.Kept) (hinv : s.Inv n) (hm : Moved s n a s') (hu : Undisturbed s a) :
    s'.Kept := by
  have htable := hinv.table
  have hcounter := htable.counter
  cases hm with
  | pollFails hloop => exact h
  | poll hloop hanswers =>
    refine h.frame fun k hk hkn hout => ?_
    have hkn' : (k : ℤ) ≤ s.userCounter := hkn
    have hkn'' : k ≤ n := by omega
    rw [data_polledBy htable.toSized hkn''] at hout
    exact ⟨k, hk, hkn, hout, fdAt_polledBy htable.toSized hkn'', rfl, rfl⟩
  | roundEnds hloop => exact h
  | idle hloop hk => exact h
  | admitted hloop hn hlisten hnew =>
    refine h.frame fun k hk hkn hout => ?_
    have hkn' : (k : ℤ) ≤ (n + 1 : ℕ) := hkn
    change (Function.update s.fds.data (n + 1) _ k).events.pollout = true at hout
    -- the new client has nothing to be sent yet
    by_cases hlast : k = n + 1
    · rw [hlast, Function.update_self] at hout
      cases hout
    · rw [Function.update_of_ne hlast] at hout
      refine ⟨k, hk, by omega, hout, ?_, rfl, rfl⟩
      rw [fdAt_enroll, Function.update_of_ne hlast]
      rfl
  | @gone n k o hloop hk hkn hleaves =>
    refine (h.look k).removed (htable.look k) hk hkn fun hawaited => ?_
    have hlast := (hu.apply htable hloop hk hkn hawaited).2 hleaves
    omega
  -- the buffer has been cleared before `recv` failed
  | @failed n k o hloop hk hkn hreads ho =>
    have hfree := hu.free htable hloop hk hkn hreads
    have htable' := (htable.look k).filled (s.fdAt k) [] (Nat.zero_le _)
    refine ((h.look k).filled hfree []).removed htable' hk hkn fun hawaited => absurd ?_ hfree
    obtain ⟨j, hj, hjn, hout, hbuf⟩ := hawaited
    exact ⟨j, hj, hjn, hout, (writeBuf_filled (s := s.look k) ..).symm.trans hbuf⟩
  | @empty _ k o hloop hk hkn hreads ho =>
    exact (h.look k).filled (hu.free htable hloop hk hkn hreads) []
  | @heard _ k o text hloop hk hkn hreads ho htext hlen =>
    have hfilled := (h.look k).filled (hu.free htable hloop hk hkn hreads) text
    refine hfilled.spread ((htable.look k).filled (s.fdAt k) text hlen) ?_
    change upToZero (Function.update s.users (s.fdAt k) _ (s.fdAt k)).buf = _
    rw [Function.update_self]
    exact upToZero_filled text
  | @written _ k o sender hloop hk hkn hout hbuf =>
    exact (h.look k).delivered (htable.look k) hk hkn _

/-! ### What is due and what is sent -/

/-- **What a step does to the texts that are due**: those of a client are left alone or
dropped, or it gets one more, which has just been received from another client. -/
theorem Moved.due_cases (hm : Moved s n a s') (htable : s.Table n) (fd : ℤ) :
    s'.due fd = s.due fd ∨ s'.due fd = [] ∨
      ∃ (k j : ℕ) (o : Outcomes) (text : List UInt8), s.loop = .scanning k ∧ a = .pass o ∧
        1 ≤ k ∧ k ≤ n ∧ s.Reads k ∧ o.received = some text ∧ text ≠ [] ∧ 1 ≤ j ∧ j ≤ n ∧ j ≠ k ∧
        s.fdAt j = fd ∧ s'.due fd = s.due fd ++ [text] := by
  have hupdate : ∀ connfd, Function.update s.due connfd [] fd = s.due fd ∨
      Function.update s.due connfd [] fd = [] := by
    intro connfd
    by_cases hfd : fd = connfd
    · rw [hfd, Function.update_self]
      exact Or.inr rfl
    · rw [Function.update_of_ne hfd]
      exact Or.inl rfl
  cases hm with
  | pollFails hloop => exact Or.inl rfl
  | poll hloop hanswers => exact Or.inl rfl
  | roundEnds hloop => exact Or.inl rfl
  | idle hloop hk => exact Or.inl rfl
  | admitted hloop hn hlisten hnew => exact Or.inl rfl
  | @gone n k o hloop hk hkn hleaves => exact (hupdate (s.fdAt k)).imp_right Or.inl
  | @failed n k o hloop hk hkn hreads ho => exact (hupdate (s.fdAt k)).imp_right Or.inl
  | empty hloop hk hkn hreads ho => exact Or.inl rfl
  | @heard _ k o text hloop hk hkn hreads ho htext hlen =>
    change (Chatroom.spread _ n (s.fdAt k) text).due fd = _ ∨
      (Chatroom.spread _ n (s.fdAt k) text).due fd = _ ∨ _
    -- the text is due for everybody but its sender
    rw [spread_due]
    split
    · rename_i hcond
      obtain ⟨hmem, hne⟩ := hcond
      obtain ⟨j, hj, hjn, rfl⟩ := mem_entries.mp hmem
      refine Or.inr (Or.inr ⟨k, j, o, text, hloop, rfl, hk, hkn, hreads, ho, htext, hj, hjn, ?_,
        rfl, ?_⟩)
      · rintro rfl
        exact hne rfl
      · change (Chatroom.spread _ n (s.fdAt k) text).due _ = _
        rw [spread_due, if_pos ⟨hmem, hne⟩]
        rfl
    · exact Or.inl rfl
  | @written _ k o sender hloop hk hkn hout hbuf => exact (hupdate (s.fdAt k)).imp_right Or.inl

/-- **What a step sends**: nothing, or the text that the `write_buf` of a client points to. -/
theorem Moved.sent_cases (hm : Moved s n a s') :
    s'.sent = s.sent ∨
      ∃ (k : ℕ) (bytes : List UInt8), 1 ≤ k ∧ k ≤ n ∧
        (s.fds.data k).events.pollout = true ∧ s.text (s.fdAt k) = some bytes ∧
        s'.sent = s.sent ++ [{ connfd := s.fdAt k, bytes := bytes, due := s.due (s.fdAt k) }] := by
  cases hm with
  | pollFails hloop => exact Or.inl rfl
  | poll hloop hanswers => exact Or.inl rfl
  | roundEnds hloop => exact Or.inl rfl
  | idle hloop hk => exact Or.inl rfl
  | admitted hloop hn hlisten hnew => exact Or.inl rfl
  | gone hloop hk hkn hleaves => exact Or.inl rfl
  | failed hloop hk hkn hreads ho => exact Or.inl rfl
  | empty hloop hk hkn hreads ho => exact Or.inl rfl
  | heard hloop hk hkn hreads ho htext hlen => exact Or.inl rfl
  | @written _ k o sender hloop hk hkn hout hbuf =>
    refine Or.inr ⟨k, _, hk, hkn, hout, ?_, rfl⟩
    rw [text, hbuf, Option.map_some, upToZero]

/-- What holds of everything sent so far goes on holding if it does of the next text. -/
theorem Moved.forall_sent (hm : Moved s n a s') {P : Sent → Prop} (hold : ∀ x ∈ s.sent, P x)
    (hnew : ∀ (k : ℕ) (bytes : List UInt8), 1 ≤ k → k ≤ n →
      (s.fds.data k).events.pollout = true → s.text (s.fdAt k) = some bytes →
      P { connfd := s.fdAt k, bytes := bytes, due := s.due (s.fdAt k) }) :
    ∀ x ∈ s'.sent, P x := by
  intro x hx
  rcases hm.sent_cases with hsent | ⟨k, bytes, hk, hkn, hout, hbytes, hsent⟩
  · exact hold x (hsent ▸ hx)
  · rw [hsent] at hx
    rcases List.mem_append.mp hx with hx | hx
    · exact hold x hx
    · exact List.mem_singleton.mp hx ▸ hnew k bytes hk hkn hout hbytes

theorem Inv.step_moved (h : s.Inv n) (hs : program.lts.step s a s') : Moved s n a s' := by
  obtain ⟨hallowed, hexec⟩ := hs
  obtain ⟨t, ht, hmoved⟩ := h.exec_moved hallowed
  obtain rfl : s' = t := Exec.pure_inj.mp (hexec.symm.trans ht)
  exact hmoved

/-! ### Runs that disturb nothing -/

/-- **What is sent is what was received**: the texts that are due are pointed to, and have no
zero byte, and everything sent so far was the text received last. -/
structure Faithful (s : Chatroom) : Prop where
  kept : s.Kept
  plain : ∀ fd, ∀ text ∈ s.due fd, 0 ∉ text
  sent : ∀ x ∈ s.sent, x.due.getLast? = some x.bytes

theorem faithful_create (listenfd : ℤ) : (create listenfd).Faithful where
  kept := fun k hk hkn => by
    have hkn' : (k : ℤ) ≤ 0 := hkn
    omega
  plain := fun fd text htext => absurd htext List.not_mem_nil
  sent := fun x hx => absurd hx List.not_mem_nil

theorem Faithful.moved (h : s.Faithful) (hinv : s.Inv n) (hm : Moved s n a s')
    (hu : Undisturbed s a) (ht : Textual s a) : s'.Faithful where
  kept := h.kept.moved hinv hm hu
  plain := by
    intro fd text htext
    rcases hm.due_cases hinv.table fd with hdue | hdue |
      ⟨k, j, o, new, hloop, rfl, hk, hkn, hreads, ho, -, hj, hjn, hjk, -, hdue⟩
    · exact h.plain fd text (hdue ▸ htext)
    · rw [hdue] at htext
      exact absurd htext List.not_mem_nil
    · rw [hdue] at htext
      rcases List.mem_append.mp htext with htext | htext
      · exact h.plain fd text htext
      · have hcounter := hinv.table.counter
        have hnew := ht.apply hinv.table hloop hk hkn hreads (by omega)
        rw [ho] at hnew
        rw [List.mem_singleton.mp htext]
        exact hnew
  sent := by
    refine hm.forall_sent h.sent fun k bytes hk hkn hout hbytes => ?_
    -- the client is sent the text it was pointing to, the last one due
    obtain ⟨text, hlast, hkept⟩ := h.kept k hk (by rw [hinv.table.counter]; omega) hout
    have hplain := h.plain (s.fdAt k) text (List.mem_of_getLast? hlast)
    rw [hbytes, Option.some.injEq, upToZero_eq hplain] at hkept
    exact hkept ▸ hlast

variable {s₀ : Chatroom} {l : List (Chatroom × Act)}

theorem run_faithful (h0 : program.init s₀) (hrun : program.lts.Run s₀ l s)
    (hcond : ∀ p ∈ l, Undisturbed p.1 p.2 ∧ Textual p.1 p.2) :
    ∀ t ∈ Lts.visited l s, (∃ n, t.Inv n) ∧ t.Faithful := by
  obtain ⟨listenfd, -, rfl⟩ := h0
  refine hrun.invariant (I := fun t => (∃ n, t.Inv n) ∧ t.Faithful)
    ⟨⟨0, inv_create listenfd⟩, faithful_create listenfd⟩ ?_
  rintro p hp t ⟨⟨n, hinv⟩, hfaithful⟩ hs
  have hmoved := hinv.step_moved hs
  exact ⟨hinv.moved hmoved, hfaithful.moved hinv hmoved (hcond p hp).1 (hcond p hp).2⟩

/-- **Everything sent is what was received**, in a run that writes no buffer that is still to
be sent from and receives no zero byte. -/
theorem run_sent (h0 : program.init s₀) (hrun : program.lts.Run s₀ l s)
    (hcond : ∀ p ∈ l, Undisturbed p.1 p.2 ∧ Textual p.1 p.2) :
    ∀ t ∈ Lts.visited l s, ∀ x ∈ t.sent, x.due.getLast? = some x.bytes := fun t ht =>
  (run_faithful h0 hrun hcond t ht).2.sent

/-- A client says something, and the other one is sent it. -/
theorem run_sent_two : ∃ (s₀ s : Chatroom) (l : List (Chatroom × Act)),
    program.lts.Run s₀ l s ∧ s.sent = [{ connfd := 5, bytes := [104, 105], due := [[104, 105]] }] ∧
      ∀ t ∈ Lts.visited l s, ∀ x ∈ t.sent, x.due.getLast? = some x.bytes := by
  have hrun := Lts.Run.of_trace (M := program.lts) (f := program.tryStep) program.tryStep_step
    (s := create 3)
    (l := [.poll fun k => { pollin := k = 0 }, .pass { accepted := 4 }, .pass {}, .pass {},
      .poll fun k => { pollin := k = 0 }, .pass { accepted := 5 }, .pass {}, .pass {}, .pass {},
      .poll fun k => { pollin := k = 1 }, .pass {}, .pass { received := some [104, 105] },
      .pass {}, .pass {},
      .poll fun k => { pollout := k = 2 }, .pass {}, .pass {}, .pass {}, .pass {}]) rfl
  exact ⟨_, _, _, hrun, rfl, run_sent ⟨3, by decide, rfl⟩ hrun (by decide)⟩

/-- **Nobody loses a text**: whatever was sent was the only text due, and whatever is due is
pointed to by the `write_buf` of a client that is waited for to be writable. -/
structure Relayed (s : Chatroom) : Prop where
  sent : ∀ x ∈ s.sent, x.due = [x.bytes]
  pending : ∀ k : ℕ, 1 ≤ k → k ≤ s.userCounter → s.due (s.fdAt k) = [] ∨
    ∃ text, s.due (s.fdAt k) = [text] ∧ s.text (s.fdAt k) = some text ∧
      (s.fds.data k).events.pollout = true

/-- **At most one text is due.** -/
structure Single (s : Chatroom) : Prop where
  due : ∀ fd, (s.due fd).length ≤ 1
  sent : ∀ x ∈ s.sent, x.due.length ≤ 1

theorem Single.moved (h : s.Single) (hinv : s.Inv n) (hm : Moved s n a s') (hs : Settled s a) :
    s'.Single where
  due := by
    intro fd
    rcases hm.due_cases hinv.table fd with hdue | hdue |
      ⟨k, j, o, text, hloop, rfl, hk, hkn, hreads, ho, htext, hj, hjn, hjk, rfl, hdue⟩
    · exact hdue ▸ h.due fd
    · rw [hdue]
      exact Nat.zero_le _
    · -- this client had no text to get
      have hcounter := hinv.table.counter
      have hout := hs.apply hinv.table hloop hk hkn hreads (by rw [ho]; exact htext) j (by omega)
        hj hjk
      have howed := (hinv.table.slots j hj hjn).owed
      rw [hout] at howed
      have hnone : s.due (s.fdAt j) = [] := by
        by_contra hne
        cases howed.mpr hne
      rw [hdue, hnone]
      exact le_rfl
  sent := hm.forall_sent h.sent fun k _ _ _ _ _ => h.due (s.fdAt k)

/-- A list of at most one element is its last one. -/
theorem eq_singleton_of_getLast? {α : Type} {l : List α} {x : α} (hlen : l.length ≤ 1)
    (hlast : l.getLast? = some x) : l = [x] := by
  match l, hlen with
  | [y], _ => exact congrArg (fun z => [z]) (Option.some.inj hlast)

theorem Faithful.relayed (h : s.Faithful) (hinv : s.Inv n) (hsingle : s.Single) : s.Relayed where
  sent := fun x hx => eq_singleton_of_getLast? (hsingle.sent x hx) (h.sent x hx)
  pending := by
    intro k hk hkn
    have hcounter := hinv.table.counter
    by_cases hdue : s.due (s.fdAt k) = []
    · exact Or.inl hdue
    · have hout := (hinv.table.slots k hk (by omega)).owed.mpr hdue
      obtain ⟨text, hlast, htext⟩ := h.kept k hk hkn hout
      have hplain := h.plain (s.fdAt k) text (List.mem_of_getLast? hlast)
      rw [upToZero_eq hplain] at htext
      exact Or.inr ⟨text, eq_singleton_of_getLast? (hsingle.due _) hlast, htext, hout⟩

/-- Two clients: one says something and leaves, and the other is sent an empty text. -/
theorem not_sent :
    ¬∀ s, program.Reachable s → ∀ x ∈ s.sent, x.due.getLast? = some x.bytes := by
  intro h
  have hinit : program.Reachable (create 3) := .init ⟨3, by decide, rfl⟩
  have hrun := hinit.foldlM (f := program.tryStep) program.tryStep_step
    (l := [.poll fun k => { pollin := k = 0 }, .pass { accepted := 4 }, .pass {}, .pass {},
      .poll fun k => { pollin := k = 0 }, .pass { accepted := 5 }, .pass {}, .pass {}, .pass {},
      .poll fun k => { pollin := k = 1 }, .pass {}, .pass { received := some [104, 105] },
      .pass {}, .pass {},
      .poll fun k => { pollrdhup := k = 1, pollout := k = 2 }, .pass {}, .pass {}, .pass {}]) rfl
  exact absurd (h _ hrun) (by decide)

end Chatroom

end Candcpp
