import Candcpp.Lts

/-!
# Two threads and a frame

`library-study/ffmpeg/src/pull_ipc.cpp`: one thread decodes the frames of a camera, and the main
thread shows them. The newest frame is handed over in a variable under a mutex; a frame that is not
taken in time is replaced by the next one.

The buffers of the frames are counted references, as in FFmpeg: an `AVFrame` refers to a buffer or
to none, `av_frame_ref` makes a second reference, and a buffer is given back with the last one
(`Candcpp.PullIpc.ref`, `Candcpp.PullIpc.unref`). To read a packet, to decode it and to wait for an
event are calls whose results are left open, and a step of a thread is one statement, so that the
critical sections are what the mutex makes of them.

| code | steps |
|---|---|
| `decode_thread` | `Candcpp.PullIpc.alloc`, `Candcpp.PullIpc.decoderStep`, `Candcpp.PullIpc.read`, `Candcpp.PullIpc.send`, `Candcpp.PullIpc.receive` |
| the loop in `main`, and what follows it | `Candcpp.PullIpc.mainStep`, `Candcpp.PullIpc.event` |

Memory for a frame is always there, but for the packet and the frame of the decoder at its start,
where the code asks. What holds of every run is in `Candcpp.Ffmpeg.PullIpcRuns`.
-/

namespace Candcpp

open Cpp

/-- Where the decoder is: before the statement that the name says. -/
inductive DecoderAt where
  | allocating
  /-- `while (running)`, of the outer loop. -/
  | testing
  | reading
  | sending
  /-- `while (running)`, of the inner loop. -/
  | testingInner
  | receiving
  | locking
  | allocShared
  | unrefShared
  | refShared
  | setReady
  | unlocking
  | unrefPacket
  | freeFrame
  | freePacket
  | setStop
  | exited
  /-- It has returned, since there was no memory. -/
  | failed
  deriving DecidableEq

/-- Where the main thread is. -/
inductive MainAt where
  | testing
  | polling
  | locking
  | taking
  | refLocal
  | clearReady
  | unlocking
  | showing
  | freeLocal
  | setStop
  | joining
  | lockingEnd
  | freeShared
  | unlockingEnd
  | closing
  | done
  deriving DecidableEq

namespace DecoderAt

/-- It is in its critical section. -/
def Inside : DecoderAt → Prop
  | .allocShared | .unrefShared | .refShared | .setReady | .unlocking => True
  | _ => False

/-- It has a frame that it has not handed over. -/
def carrying : DecoderAt → Bool
  | .locking | .allocShared | .unrefShared | .refShared => true
  | _ => false

/-- It has returned. -/
def Over : DecoderAt → Prop
  | .exited | .failed => True
  | _ => False

instance : DecidablePred Over
  | .exited | .failed => .isTrue trivial
  | .allocating | .testing | .reading | .sending | .testingInner | .receiving | .locking
  | .allocShared | .unrefShared | .refShared | .setReady | .unlocking | .unrefPacket | .freeFrame
  | .freePacket | .setStop => .isFalse id

/-- Its next step depends on nothing but the state. -/
def Silent : DecoderAt → Prop
  | .allocating | .reading | .sending | .receiving | .exited | .failed => False
  | _ => True

instance : DecidablePred Silent
  | .allocating | .reading | .sending | .receiving | .exited | .failed => .isFalse id
  | .testing | .testingInner | .locking | .allocShared | .unrefShared | .refShared | .setReady
  | .unlocking | .unrefPacket | .freeFrame | .freePacket | .setStop => .isTrue trivial

end DecoderAt

namespace MainAt

/-- It is in a critical section. -/
def Inside : MainAt → Prop
  | .taking | .refLocal | .clearReady | .unlocking | .freeShared | .unlockingEnd => True
  | _ => False

/-- The decoder has been joined. -/
def Joined : MainAt → Prop
  | .lockingEnd | .freeShared | .unlockingEnd | .closing | .done => True
  | _ => False

/-- It takes the mutex next. -/
def Locks : MainAt → Prop
  | .locking | .lockingEnd => True
  | _ => False

instance : DecidablePred Locks
  | .locking | .lockingEnd => .isTrue trivial
  | .testing | .polling | .taking | .refLocal | .clearReady | .unlocking | .showing | .freeLocal
  | .setStop | .joining | .freeShared | .unlockingEnd | .closing | .done => .isFalse id

end MainAt

/-- The two threads. -/
inductive Party where
  | decoder
  | main
  deriving DecidableEq

/-- An `AVFrame`: the buffer that it refers to, if there is one. The buffers are numbered in the
order in which they are decoded. -/
abbrev AVFrame := Option ℕ

structure PullIpc where
  running : Bool
  /-- Who holds `frame_mutex`. -/
  frameMutex : Option Party
  sharedFrame : Option AVFrame
  frameReady : Bool
  /-- The decoder and the stream have not been closed. -/
  opened : Bool
  /-- The packet of the decoder: whether it has data in it. -/
  pkt : Option Bool
  /-- The frame of the decoder. -/
  frame : Option AVFrame
  localFrame : Option AVFrame
  /-- How many references there are to each buffer. -/
  refs : ℕ → ℕ
  /-- How many frames have been decoded. -/
  decoded : ℕ
  /-- How many packets have been lost without being given back. -/
  lost : ℕ
  /-- The frames that have been shown. -/
  shown : List ℕ
  decoder : DecoderAt
  main : MainAt

namespace PullIpc

/-! ### References -/

/-- `av_frame_unref(f)`: the counters afterwards. -/
def unref (refs : ℕ → ℕ) : Option AVFrame → Exec (ℕ → ℕ)
  | some (some b) =>
    if 0 < refs b then pure (Function.update refs b (refs b - 1)) else throw .dangling
  | _ => pure refs

/-- `av_frame_ref(dst, src)`: the counters, and what `*dst` is afterwards. Without a buffer the call
is in vain. -/
def ref (refs : ℕ → ℕ) (dst src : Option AVFrame) : Exec ((ℕ → ℕ) × AVFrame) :=
  match dst, src with
  | some _, some (some b) =>
    if 0 < refs b then pure (Function.update refs b (refs b + 1), some b) else throw .dangling
  | some _, some none => pure (refs, none)
  | _, _ => throw .nullDeref

/-! ### The decoder -/

variable (s : PullIpc)

/-- The global variables, when the thread has been created. -/
def start : PullIpc where
  running := true
  frameMutex := none
  sharedFrame := none
  frameReady := false
  opened := true
  pkt := none
  frame := none
  localFrame := none
  refs := fun _ => 0
  decoded := 0
  lost := 0
  shown := []
  decoder := .allocating
  main := .testing

/-- `av_packet_alloc()` and `av_frame_alloc()`, of which each may fail. -/
def alloc (pkt frame : Bool) : PullIpc :=
  { s with
    pkt := if pkt then some false else none
    frame := if frame then some none else none
    running := s.running && (pkt && frame)
    decoder := if pkt && frame then .testing else .failed }

/-- `av_read_frame(fmt_ctx, pkt)`: it fails, or there is a packet, of the video or not. -/
def read (video : Option Bool) : Exec PullIpc :=
  if s.opened then
    match s.pkt, video with
    | none, _ => throw .nullDeref
    | some _, none => pure { s with decoder := .freeFrame }
    | some full, some video =>
      pure
        { s with
          pkt := some true
          lost := if full then s.lost + 1 else s.lost
          decoder := if video then .sending else .unrefPacket }
  else throw .dangling

/-- `avcodec_send_packet(codec_ctx, pkt)`. -/
def send (ok : Bool) : Exec PullIpc :=
  if s.opened then pure { s with decoder := if ok then .testingInner else .unrefPacket }
  else throw .dangling

/-- `avcodec_receive_frame(codec_ctx, frame)`: the frame gives its buffer back in any case, and gets
a new one if there is one. -/
def receive (got : Bool) : Exec PullIpc :=
  if s.opened then do
    let refs ← unref s.refs s.frame
    match s.frame with
    | none => throw .nullDeref
    | some _ =>
      if got then
        pure
          { s with
            frame := some (some s.decoded)
            refs := Function.update refs s.decoded 1
            decoded := s.decoded + 1
            decoder := .locking }
      else
        pure { s with frame := some none, refs := refs, decoder := .unrefPacket }
  else throw .dangling

/-- The other statements of `decode_thread`. -/
def decoderStep : Exec PullIpc :=
  match s.decoder with
  | .testing => pure { s with decoder := if s.running then .reading else .freeFrame }
  | .testingInner => pure { s with decoder := if s.running then .receiving else .unrefPacket }
  | .locking => pure { s with frameMutex := some .decoder, decoder := .allocShared }
  | .allocShared =>
    pure { s with sharedFrame := some (s.sharedFrame.getD none), decoder := .unrefShared }
  | .unrefShared => do
    let refs ← unref s.refs s.sharedFrame
    pure
      { s with
        refs := refs, sharedFrame := s.sharedFrame.map fun _ => none, decoder := .refShared }
  | .refShared => do
    let (refs, f) ← ref s.refs s.sharedFrame s.frame
    pure { s with refs := refs, sharedFrame := some f, decoder := .setReady }
  | .setReady => pure { s with frameReady := true, decoder := .unlocking }
  | .unlocking => pure { s with frameMutex := none, decoder := .testingInner }
  | .unrefPacket =>
    match s.pkt with
    | some _ => pure { s with pkt := some false, decoder := .testing }
    | none => throw .nullDeref
  | .freeFrame => do
    let refs ← unref s.refs s.frame
    pure { s with refs := refs, frame := none, decoder := .freePacket }
  | .freePacket => pure { s with pkt := none, decoder := .setStop }
  | .setStop => pure { s with running := false, decoder := .exited }
  | .allocating | .reading | .sending | .receiving | .exited | .failed => pure s

/-! ### The main thread -/

/-- `SDL_PollEvent(&event)`: there is no event, or one that ends the program or not. -/
def event : Option Bool → PullIpc
  | none => { s with main := .locking }
  | some close => { s with running := s.running && !close }

/-- The other statements of `main`, from the loop on. -/
def mainStep : Exec PullIpc :=
  match s.main with
  | .testing => pure { s with main := if s.running then .polling else .setStop }
  | .locking => pure { s with frameMutex := some .main, main := .taking }
  | .taking =>
    if s.frameReady then pure { s with localFrame := some none, main := .refLocal }
    else pure { s with main := .unlocking }
  | .refLocal => do
    let (refs, f) ← ref s.refs s.localFrame s.sharedFrame
    pure { s with refs := refs, localFrame := some f, main := .clearReady }
  | .clearReady => pure { s with frameReady := false, main := .unlocking }
  | .unlocking =>
    pure { s with frameMutex := none, main := if s.localFrame.isSome then .showing else .testing }
  | .showing =>
    match s.localFrame with
    | some (some b) =>
      if 0 < s.refs b then pure { s with shown := s.shown ++ [b], main := .freeLocal }
      else throw .dangling
    | some none => pure { s with main := .freeLocal }
    | none => throw .nullDeref
  | .freeLocal => do
    let refs ← unref s.refs s.localFrame
    pure { s with refs := refs, localFrame := none, main := .testing }
  | .setStop => pure { s with running := false, main := .joining }
  | .joining => pure { s with main := .lockingEnd }
  | .lockingEnd => pure { s with frameMutex := some .main, main := .freeShared }
  | .freeShared => do
    let refs ← unref s.refs s.sharedFrame
    pure { s with refs := refs, sharedFrame := none, main := .unlockingEnd }
  | .unlockingEnd => pure { s with frameMutex := none, main := .closing }
  | .closing => pure { s with opened := false, main := .done }
  | .polling | .done => pure s

/-! ### The program -/

/-- Who takes a step, and what the call comes to, if it is one. -/
inductive Act where
  | alloc (pkt frame : Bool)
  | read (video : Option Bool)
  | send (ok : Bool)
  | receive (got : Bool)
  | decoder
  | event (close : Option Bool)
  | main
  deriving DecidableEq

/-- Who may take a step: a thread waits for the mutex, and the main thread for the decoder. -/
def Allowed : Act → Prop
  | .alloc _ _ => s.decoder = .allocating
  | .read _ => s.decoder = .reading
  | .send _ => s.decoder = .sending
  | .receive _ => s.decoder = .receiving
  | .decoder => s.decoder.Silent ∧ (s.decoder = .locking → s.frameMutex = none)
  | .event _ => s.main = .polling
  | .main => (s.main ≠ .polling ∧ s.main ≠ .done) ∧ (s.main.Locks → s.frameMutex = none) ∧
      (s.main = .joining → s.decoder.Over)

instance : (a : Act) → Decidable (s.Allowed a)
  | .alloc _ _ | .read _ | .send _ | .receive _ | .event _ => inferInstanceAs (Decidable (_ = _))
  | .decoder => inferInstanceAs (Decidable (_ ∧ (_ → _)))
  | .main => inferInstanceAs (Decidable (_ ∧ (_ → _) ∧ (_ → _)))

def exec : Act → Exec PullIpc
  | .alloc pkt frame => pure (s.alloc pkt frame)
  | .read video => s.read video
  | .send ok => s.send ok
  | .receive got => s.receive got
  | .decoder => s.decoderStep
  | .event close => pure (s.event close)
  | .main => s.mainStep

/-- **The two threads**, from the creation of the decoder on. -/
def program : Program PullIpc Act where
  init := fun s => s = start
  allowed := Allowed
  exec := exec

instance (s : PullIpc) (a : Act) : Decidable (program.allowed s a) :=
  inferInstanceAs (Decidable (s.Allowed a))

end PullIpc

end Candcpp
