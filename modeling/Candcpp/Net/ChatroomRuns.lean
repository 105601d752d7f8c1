import Candcpp.Net.ChatroomInv

/-!
# What the poll loop of the chat room guarantees

The runs of `Candcpp.Chatroom`, whatever the system answers. `Candcpp.Chatroom.Moved` lists
what one step can do; from it follows that the tables are in order
(`Candcpp.Chatroom.Table`) and that the `for` loop is a pass over what `poll` has reported
(`Candcpp.Cpp.Pass`), although clients are admitted and removed while it goes on.

The result is `Candcpp.Chatroom.reachable_inOrder`.
-/

namespace Candcpp

namespace Chatroom

open Cpp

/-! ### The pass over the array -/

/-- What `poll` has reported at a position that is still to be examined is registered there.
That the client is readable is the exception: since `poll` returned, it may have been given a
text, and then it is waited for to be writable. -/
def Asked (slot : PollFd) : Prop :=
  (slot.revents.pollout = true → slot.events.pollout = true) ∧
    (slot.revents.pollrdhup = true → slot.events.pollrdhup = true)

/-- **The `for` loop at position `k`**, with `n` clients. -/
structure Scan (s : Chatroom) (n k : ℕ) : Prop where
  le : k ≤ n + 1
  pass : Pass s.polled s.examined (entries s.reportAt k n)
  start : k = 0 → s.examined = []
  asked : ∀ j, k ≤ j → j ≤ n → Asked (s.fds.data j)

/-- **The round**: the loop is somewhere in its pass, or has finished it. -/
structure Round (s : Chatroom) (n : ℕ) : Prop where
  scan : ∀ i, s.loop = .scanning i → ∃ k : ℕ, i = k ∧ s.Scan n k
  finished : (∀ i, s.loop ≠ .scanning i) → Pass s.polled s.examined []

/-- **The invariant of the chat room.** -/
structure Inv (s : Chatroom) (n : ℕ) : Prop where
  table : s.Table n
  round : s.Round n

/-- The state after `poll` has returned. -/
def polledBy (s : Chatroom) (n : ℕ) (revents : ℕ → PollFlags) : Chatroom :=
  { s with
    fds := s.report revents
    loop := .scanning 0
    polled := entries (fun k => (s.fdAt k, revents k)) 0 n
    examined := [] }

/-- The state after the report on position `k` has been examined. -/
def look (s : Chatroom) (k : ℕ) : Chatroom := { s with examined := s.examined ++ [s.reportAt k] }

/-- The client at position `k` is read from when it is examined. -/
def Reads (s : Chatroom) (k : ℕ) : Prop :=
  (s.fds.data k).revents.pollerr = false ∧ (s.fds.data k).revents.pollrdhup = false ∧
    (s.fds.data k).revents.pollin = true

/-- The client at position `k` is removed when it is examined, without having been read from. -/
def Leaves (s : Chatroom) (k : ℕ) : Prop :=
  (s.fds.data k).revents.pollerr = false ∧ (s.fds.data k).revents.pollrdhup = true

/-- **What a step can do**, with `n` clients. -/
inductive Moved (s : Chatroom) : ℕ → Act → Chatroom → Prop
  | pollFails {n : ℕ} (h : s.loop = .polling) : Moved s n .pollFails { s with loop := .stopped }
  /-- `poll` returns what it was asked for. -/
  | poll {n : ℕ} {revents : ℕ → PollFlags} (h : s.loop = .polling)
      (hanswers : ∀ k ≤ n, (revents k).Answers (s.fds.data k).events) :
      Moved s n (.poll revents) (s.polledBy n revents)
  /-- The loop has seen all positions. -/
  | roundEnds {n : ℕ} {o : Outcomes} (h : s.loop = .scanning (n + 1 : ℕ)) :
      Moved s n (.pass o) { s with loop := .polling }
  /-- Nothing is done about the report on position `k`. -/
  | idle {n k : ℕ} {o : Outcomes} (h : s.loop = .scanning k) (hk : k ≤ n) :
      Moved s n (.pass o) ((s.look k).next k)
  /-- A client is admitted. -/
  | admitted {n : ℕ} {o : Outcomes} (h : s.loop = .scanning (0 : ℕ)) (hn : n < userLimit)
      (hlisten : o.accepted ≠ s.listenfd) (hnew : o.accepted ∉ s.clients) :
      Moved s n (.pass o) ((s.look 0).enroll n o.accepted)
  /-- The client at position `k` has gone. -/
  | gone {n k : ℕ} {o : Outcomes} (h : s.loop = .scanning k) (hk : 1 ≤ k) (hkn : k ≤ n + 1)
      (hleaves : s.Leaves k) :
      Moved s (n + 1) (.pass o) ((s.look k).removed n k)
  /-- The read of the client at position `k` fails. -/
  | failed {n k : ℕ} {o : Outcomes} (h : s.loop = .scanning k) (hk : 1 ≤ k) (hkn : k ≤ n + 1)
      (hreads : s.Reads k) (ho : o.received = none) :
      Moved s (n + 1) (.pass o) (((s.look k).filled (s.fdAt k) []).removed n k)
  /-- The client at position `k` had nothing to be read. -/
  | empty {n k : ℕ} {o : Outcomes} (h : s.loop = .scanning k) (hk : 1 ≤ k) (hkn : k ≤ n)
      (hreads : s.Reads k) (ho : o.received = some []) :
      Moved s n (.pass o) (((s.look k).filled (s.fdAt k) []).next k)
  /-- A text is received from the client at position `k`. -/
  | heard {n k : ℕ} {o : Outcomes} {text : List UInt8} (h : s.loop = .scanning k) (hk : 1 ≤ k)
      (hkn : k ≤ n) (hreads : s.Reads k) (ho : o.received = some text) (htext : text ≠ [])
      (hlen : text.length ≤ bufferSize - 1) :
      Moved s n (.pass o)
        ((((s.look k).filled (s.fdAt k) text).spread n (s.fdAt k) text).next k)
  /-- The client at position `k` is sent the text its `write_buf` points to. -/
  | written {n k : ℕ} {o : Outcomes} {sender : ℤ} (h : s.loop = .scanning k) (hk : 1 ≤ k)
      (hkn : k ≤ n) (hout : (s.fds.data k).events.pollout = true)
      (hbuf : (s.users (s.fdAt k)).writeBuf = some sender) :
      Moved s n (.pass o)
        ((s.look k).delivered k ((s.users sender).buf.takeWhile (· ≠ 0)))

variable {s s' : Chatroom} {n k : ℕ}

theorem Table.look (h : s.Table n) (k : ℕ) : (s.look k).Table n := { h with }

/-- The listening socket is examined: a client is admitted, or nothing is done. -/
theorem Inv.examine_listener (h : s.Inv n) (hscan : s.Scan n 0) (hloop : s.loop = .scanning (0 : ℕ))
    {o : Outcomes} (ha : s.Allowed (.pass o)) :
    ∃ s', s.examine (0 : ℕ) o = pure s' ∧ Moved s n (.pass o) s' := by
  have hidle : Moved s n (.pass o) ((s.look 0).next (0 : ℕ)) := .idle hloop (Nat.zero_le n)
  obtain ⟨hout, hrdhup⟩ := hscan.asked 0 le_rfl (Nat.zero_le n)
  rw [h.table.listening.1] at hout
  rw [h.table.listening.2] at hrdhup
  rw [Allowed, hloop] at ha
  obtain ⟨hlisten, hnew, -⟩ := ha
  rw [examine, h.table.getInt (Nat.zero_le n), pure_bind]
  by_cases hin : (s.fds.data 0).revents.pollin = true
  · rw [if_pos ⟨h.table.listener, hin⟩]
    rcases (h.table.look 0).accept_cases o.accepted with heq | ⟨hfd, hn, heq⟩
    · exact ⟨_, heq, hidle⟩
    · exact ⟨_, heq, .admitted hloop hn hlisten hnew⟩
  · rw [if_neg fun hcond => hin hcond.2, if_neg (c := (s.fds.data 0).revents.pollrdhup = true)
      fun hcond => Bool.noConfusion (hrdhup hcond), if_neg hin,
      if_neg fun hcond => Bool.noConfusion (hout hcond)]
    split
    · exact ⟨_, rfl, hidle⟩
    · exact ⟨_, rfl, hidle⟩

/-- A client is examined. -/
theorem Inv.examine_client (h : s.Inv n) (hscan : s.Scan n k) (hloop : s.loop = .scanning k)
    (hk : 1 ≤ k) (hkn : k ≤ n) {o : Outcomes} (ha : s.Allowed (.pass o)) :
    ∃ s', s.examine k o = pure s' ∧ Moved s n (.pass o) s' := by
  have hidle : Moved s n (.pass o) ((s.look k).next k) := .idle hloop hkn
  have htable := h.table.look k
  rw [Allowed, hloop] at ha
  obtain ⟨-, -, hlen⟩ := ha
  have hlisten : ¬(s.fdAt k = s.listenfd ∧ (s.fds.data k).revents.pollin = true) := fun hcond =>
    h.table.notClient (hcond.1 ▸ h.table.mem_clients hk hkn)
  obtain ⟨m, rfl⟩ : ∃ m, n = m + 1 := ⟨n - 1, by omega⟩
  rw [examine, h.table.getInt hkn, pure_bind]
  refine (if_neg hlisten).symm ▸ ?_
  by_cases herr : (s.fds.data k).revents.pollerr = true
  · rw [if_pos herr]
    exact ⟨_, rfl, hidle⟩
  rw [if_neg herr]
  by_cases hrdhup : (s.fds.data k).revents.pollrdhup = true
  · rw [if_pos hrdhup]
    exact ⟨_, htable.remove_eq hkn, .gone hloop hk hkn ⟨Bool.eq_false_of_not_eq_true herr, hrdhup⟩⟩
  rw [if_neg hrdhup]
  by_cases hin : (s.fds.data k).revents.pollin = true
  · have hreads : s.Reads k :=
      ⟨Bool.eq_false_of_not_eq_true herr, Bool.eq_false_of_not_eq_true hrdhup, hin⟩
    rw [if_pos hin]
    match ho : o.received, hlen with
    | none, _ => exact ⟨_, htable.receive_none hkn, .failed hloop hk hkn hreads ho⟩
    | some [], _ => exact ⟨_, htable.receive_nil hkn, .empty hloop hk hkn hreads ho⟩
    | some (b :: bytes), hlen =>
      exact ⟨_, htable.receive_text hkn htable.distinct b bytes,
        .heard hloop hk hkn hreads ho (by simp) hlen⟩
  rw [if_neg hin]
  by_cases hout : (s.fds.data k).revents.pollout = true
  · -- it was waited for to be writable, so that it has a text to get
    have hevents := (hscan.asked k le_rfl hkn).1 hout
    obtain ⟨sender, hbuf⟩ :=
      Option.ne_none_iff_exists'.mp ((h.table.slots k hk hkn).pending hevents)
    rw [if_pos hout]
    exact ⟨_, htable.deliver_some hkn hbuf (h.table.terminated sender),
      .written hloop hk hkn hevents hbuf⟩
  · rw [if_neg hout]
    exact ⟨_, rfl, hidle⟩

/-- **Every answer of the system is followed by one of these steps.** -/
theorem Inv.exec_moved (h : s.Inv n) {a : Act} (ha : s.Allowed a) :
    ∃ s', exec s a = pure s' ∧ Moved s n a s' := by
  rw [Allowed] at ha
  rw [exec]
  generalize hloop : s.loop = l at ha
  match l, a, ha, hloop with
  | .polling, .pollFails, _, hloop => exact ⟨_, rfl, .pollFails hloop⟩
  | .polling, .poll revents, ha, hloop =>
    have hcount : s.userCounter.toNat = n := by rw [h.table.counter, Int.toNat_natCast]
    refine ⟨s.polledBy n revents, ?_, .poll hloop fun k hk => ha k ?_⟩
    · rw [polledBy, ← hcount]
      rfl
    · rw [h.table.counter]
      omega
  | .scanning i, .pass o, ha, hloop =>
    obtain ⟨k, rfl, hscan⟩ := h.round.scan i hloop
    have hallowed : s.Allowed (.pass o) := by
      rw [Allowed, hloop]
      exact ha
    have hcounter := h.table.counter
    rcases Nat.lt_or_ge n k with hend | hkn
    · -- the last position has been passed
      obtain rfl : k = n + 1 := le_antisymm hscan.le hend
      exact ⟨_, if_neg (by omega), .roundEnds hloop⟩
    · have hpass : s.execAt (.scanning k) (.pass o) = s.examine k o := if_pos (by omega)
      rw [hpass]
      rcases Nat.eq_zero_or_pos k with rfl | hk
      · exact h.examine_listener hscan hloop hallowed
      · exact h.examine_client hscan hloop hk hkn hallowed

/-! ### The steps keep it -/

/-- **The loop goes on** after the report on position `k`: what is left is what was left behind
this position, in whatever order. -/
theorem Scan.round (h : s.Scan n k) (hkn : k ≤ n) (n' k' : ℕ) (hloop : s'.loop = .scanning k')
    (hpos : 1 ≤ k') (hle : k' ≤ n' + 1) (hpolled : s'.polled = s.polled)
    (hexamined : s'.examined = s.examined ++ [s.reportAt k])
    (hleft : (entries s'.reportAt k' n').Perm (entries s.reportAt (k + 1) n))
    (hasked : ∀ j, k' ≤ j → j ≤ n' → Asked (s'.fds.data j)) : s'.Round n' where
  scan := by
    intro i hi
    obtain rfl : i = k' := PollLoop.scanning.inj (hi.symm.trans hloop)
    have hpass := h.pass
    rw [entries_cons hkn] at hpass
    refine ⟨k', rfl, hle, ?_, by omega, hasked⟩
    rw [hpolled, hexamined]
    exact hpass.next hleft
  finished := fun hnot => absurd hloop (hnot _)

/-- The next position, where no descriptor and no report has changed. -/
theorem Scan.onward (h : s.Scan n k) (hkn : k ≤ n) (hloop : s'.loop = .scanning (k + 1))
    (hpolled : s'.polled = s.polled) (hexamined : s'.examined = s.examined ++ [s.reportAt k])
    (hreport : s'.reportAt = s.reportAt)
    (hasked : ∀ j, k + 1 ≤ j → j ≤ n → Asked (s'.fds.data j)) : s'.Round n :=
  h.round hkn n (k + 1) hloop (by omega) (by omega) hpolled hexamined (by rw [hreport]) hasked

theorem reportAt_removed (s : Chatroom) (n k : ℕ) :
    (s.removed n k).reportAt = Function.update s.reportAt k (s.reportAt (n + 1)) := by
  funext j
  change ((Function.update s.fds.data k _ j).fd, (Function.update s.fds.data k _ j).revents) = _
  by_cases hj : j = k
  · rw [hj, Function.update_self, Function.update_self]
    rfl
  · rw [Function.update_of_ne hj, Function.update_of_ne hj]
    rfl

/-- The same position, where there is another client now. -/
theorem Scan.removed (h : s.Scan (n + 1) k) (hk : 1 ≤ k) (hkn : k ≤ n + 1) {t : Chatroom}
    (hfds : t.fds = s.fds) (hpolled : t.polled = s.polled)
    (hexamined : t.examined = s.examined ++ [s.reportAt k]) : (t.removed n k).Round n := by
  have hreport : t.reportAt = s.reportAt := by
    funext j
    rw [reportAt, hfds]
    rfl
  refine h.round hkn n k rfl hk hkn hpolled hexamined ?_ fun j hj hjn => ?_
  · rw [reportAt_removed, hreport]
    exact entries_remove hkn
  · obtain ⟨m, -, hjm, hmn, hdata⟩ := t.data_removed (k := k) hjn
    rw [hdata, hfds]
    exact h.asked m (hj.trans hjm) hmn

theorem reportAt_spread (s : Chatroom) (n : ℕ) (connfd : ℤ) (text : List UInt8) :
    (s.spread n connfd text).reportAt = s.reportAt := by
  funext k
  rw [reportAt, spread_data]
  split <;> rfl

theorem reportAt_delivered (s : Chatroom) (k : ℕ) (bytes : List UInt8) :
    (s.delivered k bytes).reportAt = s.reportAt := by
  funext j
  change ((Function.update s.fds.data k _ j).fd, (Function.update s.fds.data k _ j).revents) = _
  by_cases hj : j = k
  · rw [hj, Function.update_self]
    rfl
  · rw [Function.update_of_ne hj]
    rfl

/-- A client that is admitted is the last to be seen, and has nothing reported. -/
theorem Inv.round_enroll (h : s.Inv n) (hscan : s.Scan n 0) {connfd : ℤ}
    (hlisten : connfd ≠ s.listenfd) (hnew : connfd ∉ s.clients) :
    ((s.look 0).enroll n connfd).Round (n + 1) where
  scan := by
    intro i hi
    obtain rfl : i = (1 : ℕ) := (PollLoop.scanning.inj hi).symm
    have hpass := hscan.pass
    rw [hscan.start rfl, entries_cons (Nat.zero_le n)] at hpass
    -- nothing is reported for the new client, which stands behind all others
    have hreport : ((s.look 0).enroll n connfd).reportAt =
        Function.update s.reportAt (n + 1) (connfd, {}) := by
      funext k
      change ((Function.update s.fds.data (n + 1) _ k).fd,
        (Function.update s.fds.data (n + 1) _ k).revents) = _
      by_cases hk : k = n + 1
      · rw [hk, Function.update_self, Function.update_self]
      · rw [Function.update_of_ne hk, Function.update_of_ne hk]
        rfl
    have hseen : connfd ∉ (([] ++ [s.reportAt 0] ++ entries s.reportAt 1 n).map Prod.fst) := by
      rw [List.nil_append, List.map_append, map_entries]
      intro hmem
      rcases List.mem_append.mp hmem with hmem | hmem
      · exact hlisten ((List.mem_singleton.mp hmem).trans h.table.listener)
      · exact hnew (h.table.clients.mem_iff.mpr hmem)
    refine ⟨1, rfl, by omega, ?_, by omega, fun j hj hjn => ?_⟩
    · rw [hreport, entries_push (by omega)]
      change Pass s.polled (s.examined ++ [s.reportAt 0]) _
      rw [hscan.start rfl]
      exact (hpass.next (.refl _)).add hseen
    · change Asked (Function.update s.fds.data (n + 1) _ j)
      by_cases hlast : j = n + 1
      · rw [hlast, Function.update_self]
        exact ⟨by rintro ⟨⟩, by rintro ⟨⟩⟩
      · rw [Function.update_of_ne hlast]
        exact hscan.asked j (Nat.zero_le j) (by omega)
  finished := fun hnot => absurd rfl (hnot _)

/-- What `poll` leaves at a position in use. -/
theorem data_polledBy (h : s.Sized n) {revents : ℕ → PollFlags} (hk : k ≤ n) :
    (s.polledBy n revents).fds.data k = { s.fds.data k with revents := revents k } := by
  refine if_pos ?_
  rw [h.counter]
  exact Int.ofNat_le.mpr hk

theorem fdAt_polledBy (h : s.Sized n) {revents : ℕ → PollFlags} (hk : k ≤ n) :
    (s.polledBy n revents).fdAt k = s.fdAt k := by
  rw [fdAt, data_polledBy h hk]
  rfl

/-- **A round begins.** -/
theorem Inv.poll (h : s.Inv n) {revents : ℕ → PollFlags}
    (hanswers : ∀ k ≤ n, (revents k).Answers (s.fds.data k).events) :
    (s.polledBy n revents).Inv n := by
  have htable := h.table
  have hlist : (s.polledBy n revents).fdList n = s.fdList n :=
    entries_congr fun k _ hkn => fdAt_polledBy htable.toSized hkn
  refine ⟨{ htable with
    size := htable.size
    listener := ?_
    listening := ?_
    distinct := hlist ▸ htable.distinct
    clients := hlist ▸ htable.clients
    slots := fun k hk hkn => ?_ }, fun i hi => ?_, fun hnot => absurd rfl (hnot _)⟩
  · rw [fdAt_polledBy htable.toSized (Nat.zero_le n)]
    exact htable.listener
  · rw [data_polledBy htable.toSized (Nat.zero_le n)]
    exact htable.listening
  · obtain ⟨hmask, hpending, howed⟩ := htable.slots k hk hkn
    rw [fdAt_polledBy htable.toSized hkn, data_polledBy htable.toSized hkn]
    exact ⟨hmask, hpending, howed⟩
  · obtain rfl : i = (0 : ℕ) := (PollLoop.scanning.inj hi).symm
    have hstart : entries (s.polledBy n revents).reportAt 0 n =
        entries (fun k => (s.fdAt k, revents k)) 0 n := by
      refine entries_congr fun k _ hkn => ?_
      rw [reportAt, data_polledBy htable.toSized hkn]
      rfl
    refine ⟨0, rfl, Nat.zero_le _, ?_, fun _ => rfl, fun j _ hjn => ?_⟩
    -- no descriptor is at two positions
    · rw [hstart]
      refine Pass.begin ?_
      change ((entries (fun k => (s.fdAt k, revents k)) 0 n).map Prod.fst).Nodup
      rw [map_entries]
      change (entries s.fdAt 0 n).Nodup
      rw [entries_cons (Nat.zero_le n)]
      refine List.nodup_cons.mpr ⟨fun hmem => htable.notClient ?_, htable.distinct⟩
      rw [htable.listener] at hmem
      exact htable.clients.mem_iff.mpr hmem
    · rw [data_polledBy htable.toSized hjn]
      obtain ⟨-, hout, hrdhup⟩ := hanswers j hjn
      exact ⟨hout, hrdhup⟩

/-- The pass has got to the position at which the loop is. -/
theorem Inv.scan_at (h : s.Inv n) (hloop : s.loop = .scanning k) : s.Scan n k := by
  obtain ⟨k', hk', hscan⟩ := h.round.scan k hloop
  exact Int.ofNat.inj hk' ▸ hscan

/-- **Every step keeps the invariant.** -/
theorem Inv.moved (h : s.Inv n) {a : Act} (hm : Moved s n a s') : ∃ n', s'.Inv n' := by
  have htable := h.table
  cases hm with
  | pollFails hloop =>
    refine ⟨n, { htable with }, fun i hi => (by cases hi), fun _ => h.round.finished fun i hi => ?_⟩
    rw [hloop] at hi
    cases hi
  | poll _ hanswers => exact ⟨n, h.poll hanswers⟩
  | roundEnds hloop =>
    have hpass := (h.scan_at hloop).pass
    rw [entries_nil (Nat.lt_succ_self n)] at hpass
    exact ⟨n, { htable with }, fun i hi => (by cases hi), fun _ => hpass⟩
  | @idle _ k o hloop hk =>
    have hscan := h.scan_at hloop
    exact ⟨n, (htable.look k).next k, hscan.onward hk rfl rfl rfl rfl fun j hj hjn =>
      hscan.asked j (by omega) hjn⟩
  | admitted hloop hn hlisten hnew =>
    exact ⟨n + 1, (htable.look 0).enroll hn hlisten hnew,
      h.round_enroll (h.scan_at hloop) hlisten hnew⟩
  | @gone n k o hloop hk hkn _ =>
    exact ⟨n, (htable.look k).removed hk hkn, (h.scan_at hloop).removed hk hkn rfl rfl rfl⟩
  | @failed n k o hloop hk hkn _ _ =>
    have hfilled := (htable.look k).filled (s.fdAt k) [] (Nat.zero_le _)
    exact ⟨n, hfilled.removed hk hkn, (h.scan_at hloop).removed hk hkn rfl rfl rfl⟩
  | @empty _ k o hloop hk hkn _ _ =>
    have hscan := h.scan_at hloop
    have hfilled := (htable.look k).filled (s.fdAt k) [] (Nat.zero_le _)
    exact ⟨n, hfilled.next k, hscan.onward hkn rfl rfl rfl rfl fun j hj hjn =>
      hscan.asked j (by omega) hjn⟩
  | @heard _ k o text hloop hk hkn _ _ _ hlen =>
    have hscan := h.scan_at hloop
    have hfilled := (htable.look k).filled (s.fdAt k) text hlen
    refine ⟨n, (hfilled.spread (s.fdAt k) text).next k,
      hscan.onward hkn rfl rfl rfl (reportAt_spread _ _ _ text) fun j hj hjn => ?_⟩
    -- a client that was readable may now be waited for to be writable
    obtain ⟨hout, hrdhup⟩ := hscan.asked j (by omega) hjn
    change Asked ((((s.look k).filled (s.fdAt k) text).spread n (s.fdAt k) text).fds.data j)
    rw [spread_data]
    split
    · exact ⟨fun _ => rfl, hrdhup⟩
    · exact ⟨hout, hrdhup⟩
  | @written _ k o sender hloop hk hkn _ _ =>
    have hscan := h.scan_at hloop
    refine ⟨n, (htable.look k).delivered hk hkn _,
      hscan.onward hkn rfl rfl rfl (reportAt_delivered ..) fun j hj hjn => ?_⟩
    change Asked (Function.update s.fds.data k _ j)
    rw [Function.update_of_ne (by omega)]
    exact hscan.asked j (by omega) hjn

theorem inv_create (listenfd : ℤ) : (create listenfd).Inv 0 where
  table := table_create listenfd
  round :=
    { scan := fun i hi => by cases hi
      finished := fun _ => ⟨List.nodup_nil, fun p hp => by cases hp⟩ }

/-- **The loop commits no fault**: whatever the system answers, the step returns, and keeps the
invariant. -/
theorem reachable_safe (h : program.Reachable s) :
    (∃ n, s.Inv n) ∧ ∀ a, s.Allowed a → ∃ s', exec s a = pure s' := by
  refine program.safe (I := fun s => ∃ n, s.Inv n) ?_ ?_ h
  · rintro s ⟨listenfd, -, rfl⟩
    exact ⟨0, inv_create listenfd⟩
  · rintro s a ⟨n, hinv⟩ ha
    obtain ⟨s', hexec, hmoved⟩ := hinv.exec_moved ha
    exact ⟨s', hexec, hinv.moved hmoved⟩

theorem reachable_inv (h : program.Reachable s) : ∃ n, s.Inv n := (reachable_safe h).1

/-! ### The tables and the rounds -/

/-- **The tables are in order, and so is the pass over them.** -/
structure InOrder (s : Chatroom) : Prop where
  counter : 0 ≤ s.userCounter ∧ s.userCounter ≤ userLimit
  /-- The positions `1, …, user_counter` have different descriptors. -/
  distinct : (s.fdList s.userCounter.toNat).Nodup
  /-- These are the clients that have been admitted and not closed. -/
  clients : ∀ fd, fd ∈ s.fdList s.userCounter.toNat ↔ fd ∈ s.clients
  /-- Each is waited for to be readable or to be writable, and not both. -/
  mask : ∀ k : ℕ, 1 ≤ k → k ≤ s.userCounter →
    (s.fds.data k).events.pollin = !(s.fds.data k).events.pollout
  pending : ∀ k : ℕ, 1 ≤ k → k ≤ s.userCounter → (s.fds.data k).events.pollout = true →
    (s.users (s.fdAt k)).writeBuf ≠ none
  /-- When the round is over, everything reported has been examined, and once only. -/
  examined : (∀ i, s.loop ≠ .scanning i) → ∀ p ∈ s.polled, p.2 ≠ {} →
    p ∈ s.examined ∧ (s.examined.map Prod.fst).count p.1 = 1
  /-- No descriptor is examined twice in a round. -/
  once : ∀ fd, (s.examined.map Prod.fst).count fd ≤ 1

/-- **The chat room is in order in every state it reaches.** -/
theorem reachable_inOrder (h : program.Reachable s) : s.InOrder := by
  obtain ⟨n, htable, hround⟩ := reachable_inv h
  have hcounter := htable.counter
  have hlimit := htable.limit
  have hcount : s.userCounter.toNat = n := by rw [hcounter, Int.toNat_natCast]
  refine
    { counter := by omega
      distinct := hcount ▸ htable.distinct
      clients := fun fd => hcount ▸ htable.clients.mem_iff.symm
      mask := fun k hk hkn => (htable.slots k hk (by omega)).mask
      pending := fun k hk hkn => (htable.slots k hk (by omega)).pending
      examined := fun hloop p hp _ => (hround.finished hloop).seen_once hp
      once := fun fd => ?_ }
  match hloop : s.loop with
  | .scanning i =>
    obtain ⟨k, -, hscan⟩ := hround.scan i hloop
    exact hscan.pass.seen_le fd
  | .polling => exact (hround.finished fun i hi => by rw [hloop] at hi; cases hi).seen_le fd
  | .stopped => exact (hround.finished fun i hi => by rw [hloop] at hi; cases hi).seen_le fd

/-- Two clients are admitted, and what one of them says is announced to the other. -/
theorem reachable_inOrder_two : ∃ s : Chatroom, s.clients = [4, 5] ∧
    s.due 5 = [[104, 105]] ∧ s.InOrder := by
  have hinit : program.Reachable (create 3) := .init ⟨3, by decide, rfl⟩
  have hrun := hinit.foldlM (f := program.tryStep) program.tryStep_step
    (l := [.poll fun k => { pollin := k = 0 }, .pass { accepted := 4 }, .pass {}, .pass {},
      .poll fun k => { pollin := k = 0 }, .pass { accepted := 5 }, .pass {}, .pass {}, .pass {},
      .poll fun k => { pollin := k = 1 }, .pass {}, .pass { received := some [104, 105] },
      .pass {}]) rfl
  exact ⟨_, rfl, rfl, reachable_inOrder hrun⟩

end Chatroom

end Candcpp
