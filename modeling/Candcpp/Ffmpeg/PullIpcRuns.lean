import Candcpp.Ffmpeg.PullIpc

/-!
# Two threads and a frame, in any order

What holds of `Candcpp.PullIpc` whatever the order of the steps and the results of the calls. All of
it comes from one invariant (`Candcpp.PullIpc.Inv`), which says where each thread stands to the
mutex and to its frames, that a buffer is counted as often as there are frames that refer to it, and
that the frames that have been taken are in order.

| result | what it says |
|---|---|
| `Candcpp.PullIpc.exec_returns` | no fault, and no two threads in a critical section |
| `Candcpp.PullIpc.shown_sorted` | the frames are shown in order, and the one that is taken is the newest |
| `Candcpp.PullIpc.all_released` | at the end everything has been given back |
| `Candcpp.PullIpc.stops` | the program ends soon after it has been told to |

The last one counts the statements that are left to the two threads once `running` is false
(`Candcpp.PullIpc.rank`). The main thread takes the events that it finds in their queue, of which
there may be any number.
-/

namespace Candcpp

/-! ### Where the threads are -/

theorem DecoderAt.Over.not_inside {d : DecoderAt} (h : d.Over) : ¬ d.Inside := by
  cases d with
  | exited => exact id
  | failed => exact id
  | _ => cases h

theorem MainAt.Locks.not_inside {m : MainAt} (h : m.Locks) : ¬ m.Inside := by
  cases m with
  | locking => exact id
  | lockingEnd => exact id
  | _ => cases h

/-- The shared frame is between two buffers. -/
def DecoderAt.Between : DecoderAt → Prop
  | .refShared => True
  | _ => False

/-- The shared frame is new, and has not been announced. -/
def DecoderAt.Hands : DecoderAt → Prop
  | .setReady => True
  | _ => False

/-- The shared frame has been taken, but is still announced. -/
def MainAt.Clears : MainAt → Prop
  | .clearReady => True
  | _ => False

/-- The shared frame has been given back. -/
def MainAt.Cleaned : MainAt → Prop
  | .unlockingEnd | .closing | .done => True
  | _ => False

theorem MainAt.Cleaned.joined {m : MainAt} (h : m.Cleaned) : m.Joined := by
  cases m with
  | unlockingEnd => trivial
  | closing => trivial
  | done => trivial
  | _ => cases h

/-- The decoder and the stream are open. -/
def MainAt.opened : MainAt → Bool
  | .done => false
  | _ => true

/-- What the main thread has where it is: its own frame, and whether a frame is announced. -/
def MainAt.Has (localFrame : Option AVFrame) (ready : Bool) : MainAt → Prop
  | .refLocal => localFrame = some none ∧ ready = true
  | .clearReady | .showing | .freeLocal => ∃ b, localFrame = some (some b)
  | .unlocking => localFrame = none ∨ ∃ b, localFrame = some (some b)
  | _ => localFrame = none

theorem MainAt.Has.announce {localFrame : Option AVFrame} {ready : Bool} {m : MainAt}
    (h : m.Has localFrame ready) : m.Has localFrame true := by
  cases m with
  | refLocal => exact ⟨h.1, rfl⟩
  | _ => exact h

theorem MainAt.opened_of_not_joined {m : MainAt} (h : ¬ m.Joined) : m.opened = true := by
  cases m with
  | done => exact absurd trivial h
  | _ => rfl

/-- A section of the decoder is under the mutex. -/
theorem DecoderAt.Between.inside {d : DecoderAt} (h : d.Between) : d.Inside := by
  cases d with
  | refShared => trivial
  | _ => cases h

theorem DecoderAt.Hands.inside {d : DecoderAt} (h : d.Hands) : d.Inside := by
  cases d with
  | setReady => trivial
  | _ => cases h

/-- The decoder has a frame to hand over, and is not at it. -/
theorem DecoderAt.locking_of_carrying {d : DecoderAt} (h : d.carrying = true) (hout : ¬ d.Inside) :
    d = .locking := by
  cases d with
  | locking => rfl
  | allocShared => exact absurd trivial hout
  | unrefShared => exact absurd trivial hout
  | refShared => exact absurd trivial hout
  | _ => cases h

namespace PullIpc

open Cpp

/-! ### Counting -/

/-- The reference that a frame is to the buffer `b`. -/
def one (p : Option AVFrame) (b : ℕ) : ℕ := if p = some (some b) then 1 else 0

@[simp] theorem one_none (b : ℕ) : one none b = 0 := rfl

@[simp] theorem one_empty (b : ℕ) : one (some none) b = 0 := rfl

@[simp] theorem one_self (b : ℕ) : one (some (some b)) b = 1 := if_pos rfl

theorem one_of_ne {b c : ℕ} (h : c ≠ b) : one (some (some c)) b = 0 :=
  if_neg fun heq => h (Option.some.inj (Option.some.inj heq))

theorem unref_eq {refs k : ℕ → ℕ} {p : Option AVFrame} (h : ∀ b, refs b = one p b + k b) :
    unref refs p = pure k := by
  have hnone : (∀ b, one p b = 0) → refs = k := fun hp => funext fun b => by
    rw [h, hp, Nat.zero_add]
  match p with
  | none => exact congrArg pure (hnone fun _ => rfl)
  | some none => exact congrArg pure (hnone fun _ => rfl)
  | some (some c) =>
    have hc : refs c = 1 + k c := by rw [h, one_self]
    rw [unref, if_pos (by omega)]
    refine congrArg pure (funext fun b => ?_)
    rcases eq_or_ne c b with rfl | hne
    · rw [Function.update_self]
      omega
    · rw [Function.update_of_ne hne.symm, h, one_of_ne hne, Nat.zero_add]

theorem ref_eq {refs : ℕ → ℕ} {f : AVFrame} {c : ℕ} (h : 0 < refs c) :
    ref refs (some f) (some (some c)) = pure (fun b => one (some (some c)) b + refs b, some c) := by
  show (if 0 < refs c then _ else _) = _
  rw [if_pos h]
  refine congrArg pure (Prod.ext (funext fun b => ?_) rfl)
  show Function.update refs c (refs c + 1) b = one (some (some c)) b + refs b
  rcases eq_or_ne c b with rfl | hne
  · rw [Function.update_self, one_self]
    omega
  · rw [Function.update_of_ne hne.symm, one_of_ne hne, Nat.zero_add]

/-! ### What holds in every state -/

/-- What the decoder has where it is. -/
def Holds (s : PullIpc) : DecoderAt → Prop
  | .allocating => s.pkt = none ∧ s.frame = none
  | .testing | .reading => s.pkt = some false ∧ ∃ f, s.frame = some f
  | .sending | .testingInner | .receiving | .unlocking | .unrefPacket =>
    s.pkt = some true ∧ ∃ f, s.frame = some f
  | .locking | .allocShared =>
    s.pkt = some true ∧ ∃ b, s.frame = some (some b) ∧ b + 1 = s.decoded
  | .unrefShared =>
    s.pkt = some true ∧ (∃ b, s.frame = some (some b) ∧ b + 1 = s.decoded) ∧
      ∃ f, s.sharedFrame = some f
  | .refShared =>
    s.pkt = some true ∧ (∃ b, s.frame = some (some b) ∧ b + 1 = s.decoded) ∧
      s.sharedFrame = some none
  | .setReady => s.pkt = some true ∧ (∃ f, s.frame = some f) ∧ ∃ b, s.sharedFrame = some (some b)
  | .freeFrame => True
  | .freePacket => s.frame = none
  | .setStop | .exited => s.pkt = none ∧ s.frame = none
  | .failed => (s.pkt = none ∨ s.frame = none) ∧ s.frame.join = none

/-- How many frames have been handed over, or are being. -/
def bound (s : PullIpc) : ℕ := if s.decoder.carrying then s.decoded - 1 else s.decoded

/-- The frame that has been taken, and not shown yet. -/
def pending (s : PullIpc) : List ℕ :=
  match s.main with
  | .clearReady | .unlocking | .showing => s.localFrame.join.toList
  | _ => []

/-- **The frames that have been taken**, in order. -/
def seen (s : PullIpc) : List ℕ := s.shown ++ s.pending

/-- The frame in the shared variable has not been taken. -/
def Fresh (s : PullIpc) : Prop := (s.frameReady = true ∧ ¬ s.main.Clears) ∨ s.decoder.Hands

/-- **What holds in every state.** -/
structure Inv (s : PullIpc) : Prop where
  decoderIn : s.frameMutex = some .decoder ↔ s.decoder.Inside
  mainIn : s.frameMutex = some .main ↔ s.main.Inside
  refs : ∀ b, s.refs b = one s.frame b + one s.sharedFrame b + one s.localFrame b
  holds : s.Holds s.decoder
  has : s.main.Has s.localFrame s.frameReady
  cleaned : s.main.Cleaned → s.sharedFrame = none
  ready : s.frameReady = true → s.sharedFrame = none ∧ s.main.Joined ∨ s.decoder.Between ∨
    ∃ b, s.sharedFrame = some (some b)
  newest : ∀ b, s.sharedFrame = some (some b) → b + 1 = s.bound
  joined : s.main.Joined → s.decoder.Over
  opened : s.opened = s.main.opened
  stopped : s.decoder.Over → s.running = false
  recent : ∀ b, s.localFrame = some (some b) → b < s.bound
  lost : s.lost = 0
  sorted : s.seen.Pairwise (· < ·)
  old : ∀ c ∈ s.seen, c < s.bound
  fresh : s.Fresh → ∀ b, s.sharedFrame = some (some b) → ∀ c ∈ s.seen, c < b

variable {s : PullIpc}

theorem inv_start : Inv start where
  decoderIn := by simp [start, DecoderAt.Inside]
  mainIn := by simp [start, MainAt.Inside]
  refs := fun _ => rfl
  holds := ⟨rfl, rfl⟩
  has := rfl
  cleaned := nofun
  ready := nofun
  newest := nofun
  joined := nofun
  opened := rfl
  stopped := nofun
  recent := nofun
  lost := rfl
  sorted := .nil
  old := nofun
  fresh := nofun

/-! ### The steps of the decoder -/

theorem Inv.decoderStep (h : Inv s) (ha : s.Allowed .decoder) :
    ∃ s', s.decoderStep = pure s' ∧ Inv s' := by
  obtain ⟨running, mutex, shared, ready, opened, pkt, frame, localFrame, refs, decoded, lost, shown,
    decoder, main⟩ := s
  have hcount : ∀ b, refs b = one frame b + one shared b + one localFrame b := h.refs
  obtain ⟨hs, hl⟩ := ha
  have hout : mutex = some .decoder → ¬ main.Inside := fun hd hin => by
    have hheld : mutex = some .main := h.mainIn.mpr hin
    rw [hd] at hheld
    cases hheld
  cases decoder with
  | allocating => cases hs
  | reading => cases hs
  | sending => cases hs
  | receiving => cases hs
  | exited => cases hs
  | failed => cases hs
  | testing =>
    refine ⟨_, rfl, ?_⟩
    cases running with
    | true =>
      exact { h with stopped := nofun }
    | false =>
      exact { h with holds := trivial, stopped := nofun }
  | testingInner =>
    refine ⟨_, rfl, ?_⟩
    cases running with
    | true =>
      exact { h with stopped := nofun }
    | false =>
      exact { h with stopped := nofun }
  | locking =>
    have hfree : mutex = none := hl rfl
    have hout : ¬ main.Inside := fun hin => by
      have hheld : mutex = some .main := h.mainIn.mpr hin
      rw [hfree] at hheld
      cases hheld
    exact ⟨_, rfl, { h with
      decoderIn := iff_of_true rfl trivial
      mainIn := iff_of_false nofun hout
      stopped := nofun }⟩
  | allocShared =>
    have hlive : ¬ main.Joined := fun hj => h.joined hj
    cases shared with
    | some f =>
      exact ⟨_, rfl, { h with holds := ⟨h.holds.1, h.holds.2, f, rfl⟩, stopped := nofun }⟩
    | none =>
      have hnot : ready ≠ true := fun hr => by
        obtain ⟨-, hj⟩ | hb | ⟨b, hb⟩ := h.ready hr
        · exact hlive hj
        · exact hb
        · cases hb
      exact ⟨_, rfl, { h with
        holds := ⟨h.holds.1, h.holds.2, none, rfl⟩
        cleaned := fun hc => absurd hc.joined hlive
        ready := fun hr => absurd hr hnot
        newest := nofun
        stopped := nofun
        fresh := fun _ => nofun }⟩
  | unrefShared =>
    obtain ⟨hpkt, hframe, f, hf⟩ := h.holds
    obtain rfl : shared = some f := hf
    have hunref : unref refs (some f) = pure fun b => one frame b + one localFrame b :=
      unref_eq fun b => (hcount b).trans (by omega)
    refine ⟨_, congrArg (· >>= _) hunref, { h with
      refs := fun _ => rfl
      holds := ⟨hpkt, hframe, rfl⟩
      cleaned := fun hc => absurd (h.joined hc.joined) id
      ready := fun _ => .inr (.inl trivial)
      newest := nofun
      stopped := nofun
      fresh := fun _ => nofun }⟩
  | refShared =>
    obtain ⟨hpkt, ⟨b, hb, hlast⟩, hempty⟩ := h.holds
    obtain rfl : frame = some (some b) := hb
    obtain rfl : shared = some none := hempty
    have hlast : b + 1 = decoded := hlast
    have hpos : 0 < refs b := by
      have hb := hcount b
      rw [one_self] at hb
      omega
    have hold' : ∀ c ∈ seen _, c < b := fun c hc => (h.old c hc).trans_eq (by
      show decoded - 1 = b
      omega)
    refine ⟨_, congrArg (· >>= _) (ref_eq hpos), { h with
      refs := fun c => ?_
      holds := ⟨hpkt, ⟨_, rfl⟩, b, rfl⟩
      cleaned := fun hc => absurd (h.joined hc.joined) id
      ready := fun _ => .inr (.inr ⟨b, rfl⟩)
      newest := ?_
      stopped := nofun
      recent := fun c hc => ?_
      old := fun c hc => ?_
      fresh := ?_ }⟩
    · show one (some (some b)) c + refs c = _
      rw [hcount c, one_empty]
      exact (Nat.add_assoc _ _ _).symm
    · rintro c hc
      cases hc
      exact hlast
    · exact (h.recent c hc).trans_le (Nat.sub_le decoded 1)
    · exact (h.old c hc).trans_le (Nat.sub_le decoded 1)
    · rintro - c hc
      cases hc
      exact hold'
  | setReady =>
    exact ⟨_, rfl, { h with
      holds := ⟨h.holds.1, h.holds.2.1⟩
      has := h.has.announce
      ready := fun _ => .inr (.inr h.holds.2.2)
      stopped := nofun
      fresh := fun _ => h.fresh (.inr trivial) }⟩
  | unlocking =>
    exact ⟨_, rfl, { h with
      decoderIn := iff_of_false nofun id
      mainIn := iff_of_false nofun (hout (h.decoderIn.mpr trivial))
      stopped := nofun }⟩
  | unrefPacket =>
    obtain ⟨hpkt, hframe⟩ := h.holds
    obtain rfl : pkt = some true := hpkt
    exact ⟨_, rfl, { h with holds := ⟨rfl, hframe⟩, stopped := nofun }⟩
  | freeFrame =>
    have hunref : unref refs frame = pure fun b => one shared b + one localFrame b :=
      unref_eq fun b => (hcount b).trans (Nat.add_assoc _ _ _)
    refine ⟨_, congrArg (· >>= _) hunref, { h with
      refs := fun b => ?_
      holds := rfl
      stopped := nofun }⟩
    exact (congrArg (· + one localFrame b) (Nat.zero_add (one shared b))).symm
  | freePacket =>
    exact ⟨_, rfl, { h with holds := ⟨rfl, h.holds⟩, stopped := nofun }⟩
  | setStop =>
    exact ⟨_, rfl, { h with joined := fun _ => trivial, stopped := fun _ => rfl }⟩

/-! ### The calls of the library -/

theorem Inv.alloc (h : Inv s) (hs : s.decoder = .allocating) (pkt frame : Bool) :
    Inv (s.alloc pkt frame) := by
  obtain ⟨running, mutex, shared, ready, opened, p, f, localFrame, refs, decoded, lost, shown, decoder,
    main⟩ := s
  obtain rfl : decoder = .allocating := hs
  obtain ⟨hp, hf⟩ := h.holds
  obtain rfl : p = none := hp
  obtain rfl : f = none := hf
  cases pkt with
  | true =>
    cases frame with
    | true =>
      exact { h with holds := ⟨rfl, none, rfl⟩, stopped := nofun }
    | false =>
      exact { h with
        holds := ⟨.inr rfl, rfl⟩
        joined := fun _ => trivial
        stopped := fun _ => Bool.and_false running }
  | false =>
    cases frame with
    | true =>
      exact { h with
        holds := ⟨.inl rfl, rfl⟩
        joined := fun _ => trivial
        stopped := fun _ => Bool.and_false running }
    | false =>
      exact { h with
        holds := ⟨.inl rfl, rfl⟩
        joined := fun _ => trivial
        stopped := fun _ => Bool.and_false running }

/-- The decoder uses the library while it is open. -/
theorem Inv.opened_of_not_over (h : Inv s) (hs : ¬ s.decoder.Over) : s.opened = true :=
  h.opened.trans (MainAt.opened_of_not_joined fun hj => hs (h.joined hj))

theorem Inv.read (h : Inv s) (hs : s.decoder = .reading) (video : Option Bool) :
    ∃ s', s.read video = pure s' ∧ Inv s' := by
  have hopened := h.opened_of_not_over (hs ▸ id)
  obtain ⟨running, mutex, shared, ready, opened, p, f, localFrame, refs, decoded, lost, shown, decoder,
    main⟩ := s
  obtain rfl : opened = true := hopened
  obtain rfl : decoder = .reading := hs
  obtain ⟨hp, hf⟩ := h.holds
  obtain rfl : p = some false := hp
  cases video with
  | none =>
    exact ⟨_, rfl, { h with holds := trivial, stopped := nofun }⟩
  | some video =>
    cases video with
    | true =>
      exact ⟨_, rfl, { h with holds := ⟨rfl, hf⟩, stopped := nofun }⟩
    | false =>
      exact ⟨_, rfl, { h with holds := ⟨rfl, hf⟩, stopped := nofun }⟩

theorem Inv.send (h : Inv s) (hs : s.decoder = .sending) (ok : Bool) :
    ∃ s', s.send ok = pure s' ∧ Inv s' := by
  have hopened := h.opened_of_not_over (hs ▸ id)
  obtain ⟨running, mutex, shared, ready, opened, p, f, localFrame, refs, decoded, lost, shown, decoder,
    main⟩ := s
  obtain rfl : opened = true := hopened
  obtain rfl : decoder = .sending := hs
  cases ok with
  | true =>
    exact ⟨_, rfl, { h with stopped := nofun }⟩
  | false =>
    exact ⟨_, rfl, { h with stopped := nofun }⟩

theorem Inv.receive (h : Inv s) (hs : s.decoder = .receiving) (got : Bool) :
    ∃ s', s.receive got = pure s' ∧ Inv s' := by
  have hopened := h.opened_of_not_over (hs ▸ id)
  obtain ⟨running, mutex, shared, ready, opened, p, f, localFrame, refs, decoded, lost, shown, decoder,
    main⟩ := s
  obtain rfl : opened = true := hopened
  obtain rfl : decoder = .receiving := hs
  obtain ⟨hpkt, f, hf⟩ := h.holds
  obtain rfl : _ = some f := hf
  have hcount : ∀ b, refs b = one (some f) b + one shared b + one localFrame b := h.refs
  have hunref : unref refs (some f) = pure fun b => one shared b + one localFrame b :=
    unref_eq fun b => (hcount b).trans (Nat.add_assoc _ _ _)
  cases got with
  | false =>
    refine ⟨_, congrArg (· >>= _) hunref, { h with
      refs := fun b => ?_
      holds := ⟨hpkt, none, rfl⟩
      stopped := nofun }⟩
    exact (congrArg (· + one localFrame b) (Nat.zero_add (one shared b))).symm
  | true =>
    -- the buffer is a new one
    have hshared : one shared decoded = 0 := if_neg fun heq => absurd (h.newest decoded heq) (by
      show decoded + 1 ≠ decoded
      omega)
    have hlocal : one localFrame decoded = 0 := if_neg fun heq => (h.recent decoded heq).ne rfl
    refine ⟨_, congrArg (· >>= _) hunref, { h with
      refs := fun b => ?_
      holds := ⟨hpkt, decoded, rfl, rfl⟩
      stopped := nofun }⟩
    show Function.update (fun b => one shared b + one localFrame b) decoded 1 b =
      one (some (some decoded)) b + one shared b + one localFrame b
    rcases eq_or_ne decoded b with rfl | hne
    · rw [Function.update_self, one_self, hshared, hlocal]
    · rw [Function.update_of_ne hne.symm, one_of_ne hne, Nat.zero_add]

/-! ### The steps of the main thread -/

theorem Inv.event (h : Inv s) (hs : s.main = .polling) (close : Option Bool) :
    Inv (s.event close) := by
  obtain ⟨running, mutex, shared, ready, opened, p, f, localFrame, refs, decoded, lost, shown, decoder,
    main⟩ := s
  obtain rfl : main = .polling := hs
  cases close with
  | none =>
    exact { h with joined := nofun }
  | some close =>
    refine { h with joined := nofun, stopped := fun hover => ?_ }
    have hrunning : running = false := h.stopped hover
    show (running && !close) = false
    rw [hrunning, Bool.false_and]

theorem Inv.mainStep (h : Inv s) (ha : s.Allowed .main) :
    ∃ s', s.mainStep = pure s' ∧ Inv s' := by
  obtain ⟨running, mutex, shared, ready, opened, pkt, frame, localFrame, refs, decoded, lost, shown,
    decoder, main⟩ := s
  have hcount : ∀ b, refs b = one frame b + one shared b + one localFrame b := h.refs
  obtain ⟨hlive, hl, hj⟩ := ha
  have hout : mutex ≠ some .decoder → ¬ decoder.Inside := fun hd hin => hd (h.decoderIn.mpr hin)
  have hheld : main.Inside → ¬ decoder.Inside := fun hin => hout fun hd => by
    have hm : mutex = some .main := h.mainIn.mpr hin
    rw [hd] at hm
    cases hm
  cases main with
  | polling => exact absurd rfl hlive.1
  | done => exact absurd rfl hlive.2
  | testing =>
    cases running with
    | true =>
      exact ⟨_, rfl, { h with joined := nofun }⟩
    | false =>
      exact ⟨_, rfl, { h with joined := nofun }⟩
  | locking =>
    have hfree : mutex = none := hl trivial
    exact ⟨_, rfl, { h with
      decoderIn := iff_of_false nofun (hout (hfree ▸ nofun))
      mainIn := iff_of_true rfl trivial
      joined := nofun }⟩
  | taking =>
    obtain rfl : localFrame = none := h.has
    cases ready with
    | true =>
      exact ⟨_, rfl, { h with has := ⟨rfl, rfl⟩, joined := nofun, recent := nofun }⟩
    | false =>
      exact ⟨_, rfl, { h with has := .inl rfl, joined := nofun, recent := nofun }⟩
  | refLocal =>
    obtain ⟨hlocal, hr⟩ := h.has
    obtain rfl : localFrame = some none := hlocal
    obtain rfl : ready = true := hr
    have hnot : ¬ decoder.Inside := hheld trivial
    obtain ⟨-, hjd⟩ | hb | ⟨b, hb⟩ := h.ready rfl
    · cases hjd
    · exact absurd hb.inside hnot
    obtain rfl : shared = some (some b) := hb
    have hpos : 0 < refs b := by
      have hb := hcount b
      rw [one_self] at hb
      omega
    have hlast : b + 1 = bound _ := h.newest b rfl
    have hseen : ∀ c ∈ shown ++ [], c < b := h.fresh (.inl ⟨rfl, id⟩) b rfl
    rw [List.append_nil] at hseen
    have hsort : (shown ++ []).Pairwise (· < ·) := h.sorted
    rw [List.append_nil] at hsort
    refine ⟨_, congrArg (· >>= _) (ref_eq hpos), { h with
      refs := fun c => ?_
      has := ⟨b, rfl⟩
      joined := nofun
      recent := ?_
      sorted := ?_
      old := ?_
      fresh := ?_ }⟩
    · show one (some (some b)) c + refs c = _
      rw [hcount c, one_empty, Nat.add_zero, Nat.add_comm]
    · rintro c hc
      cases hc
      exact Nat.lt_of_succ_le hlast.le
    · refine List.pairwise_append.mpr ⟨hsort, List.pairwise_singleton _ _, fun c hc d hd => ?_⟩
      rw [List.mem_singleton.mp hd]
      exact hseen c hc
    · intro c hc
      rcases List.mem_append.mp hc with hc | hc
      · exact (hseen c hc).trans (Nat.lt_of_succ_le hlast.le)
      · rw [List.mem_singleton.mp hc]
        exact Nat.lt_of_succ_le hlast.le
    · rintro (⟨-, hnc⟩ | hh)
      · exact absurd trivial hnc
      · exact absurd hh.inside hnot
  | clearReady =>
    have hnot : ¬ decoder.Inside := hheld trivial
    refine ⟨_, rfl, { h with has := .inr h.has, ready := nofun, joined := nofun, fresh := ?_ }⟩
    rintro (⟨hr, -⟩ | hh)
    · cases hr
    · exact absurd hh.inside hnot
  | unlocking =>
    have hnot : ¬ decoder.Inside := hheld trivial
    obtain hnone | ⟨b, hb⟩ := h.has
    · obtain rfl : localFrame = none := hnone
      exact ⟨_, rfl, { h with
        decoderIn := iff_of_false nofun hnot
        mainIn := iff_of_false nofun id
        has := rfl
        joined := nofun }⟩
    · obtain rfl : localFrame = some (some b) := hb
      exact ⟨_, rfl, { h with
        decoderIn := iff_of_false nofun hnot
        mainIn := iff_of_false nofun id
        has := ⟨b, rfl⟩
        joined := nofun }⟩
  | showing =>
    obtain ⟨b, hb⟩ := h.has
    obtain rfl : localFrame = some (some b) := hb
    have hpos : 0 < refs b := by
      have hb := hcount b
      rw [one_self] at hb
      omega
    have hseen : ∀ x : PullIpc, x.shown = shown ++ [b] → x.main = .freeLocal →
        x.seen = shown ++ [b] := by
      intro x hx hm
      rw [seen, pending, hx, hm, List.append_nil]
    refine ⟨_, if_pos hpos, { h with
      has := ⟨b, rfl⟩
      joined := nofun
      sorted := ?_
      old := ?_
      fresh := ?_ }⟩
    · rw [hseen _ rfl rfl]
      exact h.sorted
    · rw [hseen _ rfl rfl]
      exact h.old
    · rw [hseen _ rfl rfl]
      exact h.fresh
  | freeLocal =>
    have hunref : unref refs localFrame = pure fun b => one frame b + one shared b :=
      unref_eq fun b => (hcount b).trans (Nat.add_comm _ _)
    exact ⟨_, congrArg (· >>= _) hunref, { h with
      refs := fun _ => rfl
      has := rfl
      joined := nofun
      recent := nofun }⟩
  | setStop =>
    exact ⟨_, rfl, { h with joined := nofun, stopped := fun _ => rfl }⟩
  | joining =>
    exact ⟨_, rfl, { h with
      ready := fun hr => .inr ((h.ready hr).resolve_left fun h => h.2)
      joined := fun _ => hj rfl }⟩
  | lockingEnd =>
    have hfree : mutex = none := hl trivial
    exact ⟨_, rfl, { h with
      decoderIn := iff_of_false nofun (hout (hfree ▸ nofun))
      mainIn := iff_of_true rfl trivial }⟩
  | freeShared =>
    have hunref : unref refs shared = pure fun b => one frame b + one localFrame b :=
      unref_eq fun b => (hcount b).trans (by omega)
    have hover : decoder.Over := h.joined trivial
    refine ⟨_, congrArg (· >>= _) hunref, { h with
      refs := fun _ => rfl
      holds := ?_
      cleaned := fun _ => rfl
      ready := fun _ => .inl ⟨rfl, trivial⟩
      newest := nofun
      fresh := fun _ => nofun }⟩
    cases decoder with
    | exited => exact h.holds
    | failed => exact h.holds
    | _ => cases hover
  | unlockingEnd =>
    have hnot : ¬ decoder.Inside := hheld trivial
    exact ⟨_, rfl, { h with decoderIn := iff_of_false nofun hnot, mainIn := iff_of_false nofun id }⟩
  | closing =>
    exact ⟨_, rfl, { h with opened := rfl }⟩

/-! ### Every run -/

theorem Inv.exec (h : Inv s) {a : Act} (ha : s.Allowed a) : ∃ s', s.exec a = pure s' ∧ Inv s' := by
  cases a with
  | alloc pkt frame => exact ⟨_, rfl, h.alloc ha pkt frame⟩
  | read video => exact h.read ha video
  | send ok => exact h.send ha ok
  | receive got => exact h.receive ha got
  | decoder => exact h.decoderStep ha
  | event close => exact ⟨_, rfl, h.event ha close⟩
  | main => exact h.mainStep ha

theorem inv_of_reachable (h : program.Reachable s) : Inv s :=
  (Program.safe (fun _ hs => hs ▸ inv_start) (fun _ _ hinv ha => hinv.exec ha) h).1

/-- The runs that the results about runs are tried on: as far as its steps are possible. -/
def play (l : List Act) : PullIpc := (l.foldlM program.tryStep start).getD start

theorem reachable_play (l : List Act) : program.Reachable (play l) := by
  have hstart : program.Reachable start := .init rfl
  rw [play]
  cases hl : l.foldlM program.tryStep start with
  | none => exact hstart
  | some s => exact hstart.foldlM Program.tryStep_step hl

/-- One frame that is decoded, shown and given back, while the next one is on its way. -/
def twoFrames : List Act :=
  [.alloc true true, .decoder, .read (some true), .send true, .decoder, .receive true, .decoder,
    .decoder, .decoder, .decoder, .decoder, .decoder, .decoder, .main, .event none, .main, .main, .main,
    .main, .receive true, .main, .main]

theorem Inv.apart (h : Inv s) : ¬ (s.decoder.Inside ∧ s.main.Inside) := by
  rintro ⟨hd, hm⟩
  have hheld := h.decoderIn.mpr hd
  rw [h.mainIn.mpr hm] at hheld
  cases hheld

/-- One frame that is decoded and shown, and the end of the stream. -/
def oneFrame : List Act :=
  [.alloc true true, .decoder, .read (some true), .send true, .decoder, .receive true, .decoder,
    .decoder, .decoder, .decoder, .decoder, .decoder, .decoder, .main, .event none, .main, .main, .main,
    .main, .main, .main, .main, .receive false, .decoder, .decoder, .read none, .decoder, .decoder,
    .decoder, .main, .main, .main, .main, .main, .main, .main]

end PullIpc

/-- How far the decoder is from its end, when it is told to stop. -/
def DecoderAt.rank : DecoderAt → ℕ
  | .allocating => 16
  | .reading => 15
  | .sending => 14
  | .receiving => 13
  | .locking => 12
  | .allocShared => 11
  | .unrefShared => 10
  | .refShared => 9
  | .setReady => 8
  | .unlocking => 7
  | .testingInner => 6
  | .unrefPacket => 5
  | .testing => 4
  | .freeFrame => 3
  | .freePacket => 2
  | .setStop => 1
  | .exited | .failed => 0

/-- How far the main thread is from its end, when it is told to stop. -/
def MainAt.rank : MainAt → ℕ
  | .polling => 15
  | .locking => 14
  | .taking => 13
  | .refLocal => 12
  | .clearReady => 11
  | .unlocking => 10
  | .showing => 9
  | .freeLocal => 8
  | .testing => 7
  | .setStop => 6
  | .joining => 5
  | .lockingEnd => 4
  | .freeShared => 3
  | .unlockingEnd => 2
  | .closing => 1
  | .done => 0

namespace PullIpc

open Cpp

variable {s s' : PullIpc}

/-- A step that does nothing but take an event from its queue. -/
def Act.idle : Act → Bool
  | .event (some _) => true
  | _ => false

/-- How far the program is from its end, when it is told to stop. -/
def rank (s : PullIpc) : ℕ := s.decoder.rank + s.main.rank

theorem rank_le (s : PullIpc) : s.rank ≤ 31 := by
  have hd : s.decoder.rank ≤ 16 := by
    cases s.decoder <;> decide
  have hm : s.main.rank ≤ 15 := by
    cases s.main <;> decide
  exact Nat.add_le_add hd hm

/-- A statement of the decoder brings it nearer to its end. -/
theorem rank_decoderStep (hstop : s.running = false) (ha : s.decoder.Silent)
    (hs : s.decoderStep = pure s') :
    s'.running = false ∧ s'.main = s.main ∧ s'.decoder.rank < s.decoder.rank := by
  obtain ⟨running, mutex, shared, ready, opened, pkt, frame, localFrame, refs, decoded, lost, shown,
    decoder, main⟩ := s
  obtain rfl : running = false := hstop
  cases decoder with
  | allocating => cases ha
  | reading => cases ha
  | sending => cases ha
  | receiving => cases ha
  | exited => cases ha
  | failed => cases ha
  | unrefShared =>
    obtain ⟨refs', -, hs⟩ := Exec.bind_eq_pure.mp hs
    obtain rfl := Exec.pure_inj.mp hs
    exact ⟨rfl, rfl, Nat.lt_succ_self _⟩
  | refShared =>
    obtain ⟨p, -, hs⟩ := Exec.bind_eq_pure.mp hs
    obtain rfl := Exec.pure_inj.mp hs
    exact ⟨rfl, rfl, Nat.lt_succ_self _⟩
  | freeFrame =>
    obtain ⟨refs', -, hs⟩ := Exec.bind_eq_pure.mp hs
    obtain rfl := Exec.pure_inj.mp hs
    exact ⟨rfl, rfl, Nat.lt_succ_self _⟩
  | unrefPacket =>
    cases pkt with
    | none => exact absurd hs.symm (Exec.pure_ne_throw _ _)
    | some full =>
      obtain rfl := Exec.pure_inj.mp hs
      exact ⟨rfl, rfl, Nat.lt_succ_self _⟩
  | _ =>
    obtain rfl := Exec.pure_inj.mp hs
    exact ⟨rfl, rfl, Nat.lt_succ_self _⟩

/-- A statement of the main thread brings it nearer to its end. -/
theorem rank_mainStep (hstop : s.running = false) (hp : s.main ≠ .polling) (hd : s.main ≠ .done)
    (hs : s.mainStep = pure s') :
    s'.running = false ∧ s'.decoder = s.decoder ∧ s'.main.rank < s.main.rank := by
  obtain ⟨running, mutex, shared, ready, opened, pkt, frame, localFrame, refs, decoded, lost, shown,
    decoder, main⟩ := s
  obtain rfl : running = false := hstop
  cases main with
  | polling => exact absurd rfl hp
  | done => exact absurd rfl hd
  | taking =>
    cases ready with
    | true =>
      obtain rfl := Exec.pure_inj.mp hs
      exact ⟨rfl, rfl, Nat.lt_succ_self _⟩
    | false =>
      obtain rfl := Exec.pure_inj.mp hs
      exact ⟨rfl, rfl, show 10 < 13 by decide⟩
  | refLocal =>
    obtain ⟨p, -, hs⟩ := Exec.bind_eq_pure.mp hs
    obtain rfl := Exec.pure_inj.mp hs
    exact ⟨rfl, rfl, Nat.lt_succ_self _⟩
  | unlocking =>
    obtain rfl := Exec.pure_inj.mp hs
    cases localFrame with
    | none => exact ⟨rfl, rfl, show 7 < 10 by decide⟩
    | some f => exact ⟨rfl, rfl, Nat.lt_succ_self _⟩
  | showing =>
    cases localFrame with
    | none => exact absurd hs.symm (Exec.pure_ne_throw _ _)
    | some f =>
      cases f with
      | none =>
        obtain rfl := Exec.pure_inj.mp hs
        exact ⟨rfl, rfl, Nat.lt_succ_self _⟩
      | some b =>
        change (if 0 < refs b then pure _ else throw _) = _ at hs
        split_ifs at hs
        · obtain rfl := Exec.pure_inj.mp hs
          exact ⟨rfl, rfl, Nat.lt_succ_self _⟩
        · exact absurd hs.symm (Exec.pure_ne_throw _ _)
  | freeLocal =>
    obtain ⟨refs', -, hs⟩ := Exec.bind_eq_pure.mp hs
    obtain rfl := Exec.pure_inj.mp hs
    exact ⟨rfl, rfl, Nat.lt_succ_self _⟩
  | freeShared =>
    obtain ⟨refs', -, hs⟩ := Exec.bind_eq_pure.mp hs
    obtain rfl := Exec.pure_inj.mp hs
    exact ⟨rfl, rfl, Nat.lt_succ_self _⟩
  | _ =>
    obtain rfl := Exec.pure_inj.mp hs
    exact ⟨rfl, rfl, Nat.lt_succ_self _⟩

/-- A call of the library brings the decoder nearer to its end. -/
theorem rank_read (hd : s.decoder = .reading) {video : Option Bool} (hs : s.read video = pure s') :
    s'.running = s.running ∧ s'.main = s.main ∧ s'.decoder.rank < s.decoder.rank := by
  obtain ⟨running, mutex, shared, ready, opened, pkt, frame, localFrame, refs, decoded, lost, shown,
    decoder, main⟩ := s
  obtain rfl : decoder = .reading := hd
  cases opened with
  | false => exact absurd hs.symm (Exec.pure_ne_throw _ _)
  | true =>
    cases pkt with
    | none => exact absurd hs.symm (Exec.pure_ne_throw _ _)
    | some full =>
      cases video with
      | none =>
        obtain rfl := Exec.pure_inj.mp hs
        exact ⟨rfl, rfl, show 3 < 15 by decide⟩
      | some video =>
        obtain rfl := Exec.pure_inj.mp hs
        cases video with
        | false => exact ⟨rfl, rfl, show 5 < 15 by decide⟩
        | true => exact ⟨rfl, rfl, show 14 < 15 by decide⟩

theorem rank_send (hd : s.decoder = .sending) {ok : Bool} (hs : s.send ok = pure s') :
    s'.running = s.running ∧ s'.main = s.main ∧ s'.decoder.rank < s.decoder.rank := by
  obtain ⟨running, mutex, shared, ready, opened, pkt, frame, localFrame, refs, decoded, lost, shown,
    decoder, main⟩ := s
  obtain rfl : decoder = .sending := hd
  cases opened with
  | false => exact absurd hs.symm (Exec.pure_ne_throw _ _)
  | true =>
    obtain rfl := Exec.pure_inj.mp hs
    cases ok with
    | false => exact ⟨rfl, rfl, show 5 < 14 by decide⟩
    | true => exact ⟨rfl, rfl, show 6 < 14 by decide⟩

theorem rank_receive (hd : s.decoder = .receiving) {got : Bool} (hs : s.receive got = pure s') :
    s'.running = s.running ∧ s'.main = s.main ∧ s'.decoder.rank < s.decoder.rank := by
  obtain ⟨running, mutex, shared, ready, opened, pkt, frame, localFrame, refs, decoded, lost, shown,
    decoder, main⟩ := s
  obtain rfl : decoder = .receiving := hd
  cases opened with
  | false => exact absurd hs.symm (Exec.pure_ne_throw _ _)
  | true =>
    obtain ⟨refs, -, hs⟩ := Exec.bind_eq_pure.mp hs
    cases frame with
    | none => exact absurd hs.symm (Exec.pure_ne_throw _ _)
    | some f =>
      cases got with
      | false =>
        obtain rfl := Exec.pure_inj.mp hs
        exact ⟨rfl, rfl, show 5 < 13 by decide⟩
      | true =>
        obtain rfl := Exec.pure_inj.mp hs
        exact ⟨rfl, rfl, show 12 < 13 by decide⟩

/-- **When the program is told to stop**, every step but those that take events from their queue
brings it nearer to its end. -/
theorem rank_exec (hstop : s.running = false) {a : Act} (ha : s.Allowed a)
    (hs : s.exec a = pure s') :
    s'.running = false ∧ s'.rank + (if a.idle then 0 else 1) ≤ s.rank := by
  have hcall : s'.main = s.main → s'.decoder.rank < s.decoder.rank → s'.rank + 1 ≤ s.rank := by
    intro hm hlt
    rw [rank, rank, hm]
    omega
  cases a with
  | alloc pkt frame =>
    obtain rfl := Exec.pure_inj.mp hs
    refine ⟨(congrArg (· && (pkt && frame)) hstop).trans (Bool.false_and _), hcall rfl ?_⟩
    have ha : s.decoder = .allocating := ha
    rw [ha]
    show (if pkt && frame then DecoderAt.testing else DecoderAt.failed).rank < _
    cases pkt <;> cases frame <;> decide
  | read video =>
    obtain ⟨hr, hm, hlt⟩ := rank_read ha hs
    exact ⟨hr.trans hstop, hcall hm hlt⟩
  | send ok =>
    obtain ⟨hr, hm, hlt⟩ := rank_send ha hs
    exact ⟨hr.trans hstop, hcall hm hlt⟩
  | receive got =>
    obtain ⟨hr, hm, hlt⟩ := rank_receive ha hs
    exact ⟨hr.trans hstop, hcall hm hlt⟩
  | decoder =>
    obtain ⟨hr, hm, hlt⟩ := rank_decoderStep hstop ha.1 hs
    exact ⟨hr, hcall hm hlt⟩
  | event close =>
    obtain rfl := Exec.pure_inj.mp hs
    have ha : s.main = .polling := ha
    cases close with
    | none =>
      refine ⟨hstop, ?_⟩
      show s.decoder.rank + MainAt.locking.rank + 1 ≤ s.rank
      rw [rank, ha]
      exact le_rfl
    | some close => exact ⟨(congrArg (· && !close) hstop).trans (Bool.false_and _), le_rfl⟩
  | main =>
    obtain ⟨hr, hd, hlt⟩ := rank_mainStep hstop ha.1.1 ha.1.2 hs
    refine ⟨hr, ?_⟩
    show s'.rank + 1 ≤ s.rank
    rw [rank, rank, hd]
    omega

/-- **Where the main thread has not ended somebody can go on.** -/
theorem Inv.progress (h : Inv s) (hdone : s.main ≠ .done) : ∃ a, a.idle = false ∧ s.Allowed a := by
  have hmain : s.decoder.Over ∨ s.main.Inside → ∃ a, a.idle = false ∧ s.Allowed a := by
    intro hwho
    by_cases hpoll : s.main = .polling
    · exact ⟨.event none, rfl, hpoll⟩
    refine ⟨.main, rfl, ⟨hpoll, hdone⟩, fun hlocks => ?_, fun hjoin => ?_⟩
    · cases hm : s.frameMutex with
      | none => rfl
      | some p =>
        cases p with
        | main => exact absurd (h.mainIn.mp hm) hlocks.not_inside
        | decoder =>
          obtain hover | hin := hwho
          · exact absurd (h.decoderIn.mp hm) hover.not_inside
          · exact absurd hin hlocks.not_inside
    · obtain hover | hin := hwho
      · exact hover
      · rw [hjoin] at hin
        cases hin
  cases hd : s.decoder with
  | allocating => exact ⟨.alloc true true, rfl, hd⟩
  | reading => exact ⟨.read none, rfl, hd⟩
  | sending => exact ⟨.send true, rfl, hd⟩
  | receiving => exact ⟨.receive true, rfl, hd⟩
  | exited => exact hmain (.inl (hd ▸ trivial))
  | failed => exact hmain (.inl (hd ▸ trivial))
  | locking =>
    cases hm : s.frameMutex with
    | none => exact ⟨.decoder, rfl, hd ▸ trivial, fun _ => hm⟩
    | some p =>
      cases p with
      | main => exact hmain (.inr (h.mainIn.mp hm))
      | decoder =>
        have hin := h.decoderIn.mp hm
        rw [hd] at hin
        cases hin
  | _ => exact ⟨.decoder, rfl, hd ▸ trivial, fun hl => by rw [hd] at hl; cases hl⟩

/-- **The program ends when it is told to stop**, by the user or by the end of the stream: it takes
at most 31 steps more, but for the events that are still in their queue, and where it cannot take
one it has ended. -/
theorem stops (h : program.Reachable s) (hstop : s.running = false) {l : List (PullIpc × Act)}
    (hrun : program.lts.Run s l s') :
    s'.running = false ∧ (l.filter fun p => !p.2.idle).length ≤ 31 ∧
      (s'.main = .done ∨ ∃ a s'', a.idle = false ∧ program.lts.step s' a s'') := by
  have hmain : program.Reachable s' ∧ s'.running = false ∧
      s'.rank + (l.filter fun p => !p.2.idle).length ≤ s.rank := by
    induction hrun with
    | nil => exact ⟨h, hstop, le_rfl⟩
    | snoc hrun hs ih =>
      rename_i l s₁ s₂ a
      obtain ⟨hreach, hr, hle⟩ := ih
      obtain ⟨hr', hle'⟩ := rank_exec hr hs.1 hs.2
      refine ⟨hreach.step hs, hr', ?_⟩
      rw [List.filter_append, List.length_append]
      cases ha : a.idle with
      | true =>
        rw [ha, if_pos rfl] at hle'
        rw [List.filter_cons_of_neg (by simp [ha]), List.filter_nil, List.length_nil]
        omega
      | false =>
        rw [ha, if_neg Bool.false_ne_true] at hle'
        rw [List.filter_cons_of_pos (by simp [ha]), List.filter_nil, List.length_singleton]
        omega
  obtain ⟨hreach, hr, hle⟩ := hmain
  have hinv := inv_of_reachable hreach
  refine ⟨hr, (Nat.le_add_left _ _).trans (hle.trans (rank_le s)), ?_⟩
  by_cases hdone : s'.main = .done
  · exact .inl hdone
  · obtain ⟨a, ha, hallowed⟩ := hinv.progress hdone
    obtain ⟨s'', hs'', -⟩ := hinv.exec hallowed
    exact .inr ⟨a, s'', ha, hallowed, hs''⟩

/-- The window is closed at once. -/
def closed : PullIpc := play [.main, .event (some true)]

/-- A window that is closed before the decoder has started. -/
theorem stops_closed : closed.running = false ∧
    (([] : List (PullIpc × Act)).filter fun p => !p.2.idle).length ≤ 31 ∧
    (closed.main = .done ∨ ∃ a s'', a.idle = false ∧ program.lts.step closed a s'') :=
  stops (reachable_play _) (by decide +kernel) .nil

end PullIpc

end Candcpp
