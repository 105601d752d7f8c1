import Candcpp.Text.Feed

/-!
# Decoding an audio file

`library-study/ffmpeg/src/decode_audio.c`: the bytes of a file are given to a parser, and its packets
to a decoder, whose samples are written to another file.

The bytes go through an array of 20480 bytes. When fewer than 4096 are left, they are moved to its
front, and it is filled up. **So the parser is fed with the file, byte by byte, and looks at 4096
bytes or at all that is left, whatever it uses of them** (`Candcpp.DecodeAudio.decodeAudio_returns`).

The decoder has the samples of each channel for itself; in the output they take turns
(`Candcpp.DecodeAudio.packed_sample`).
-/

namespace Candcpp

open Cpp

/-! ### The decoder -/

/-- A frame of planar samples: there are as many planes as channels, and as many samples in each of
them as the frame says. -/
structure AudioFrame (channels bytes : ℕ) where
  nbSamples : ℕ
  data : List (List UInt8)
  length_data : data.length = channels
  length_plane : ∀ plane ∈ data, bytes * nbSamples ≤ plane.length

/-- **A decoder**: a packet, or the end of the stream, is sent to it, and it has some frames then,
or it fails. -/
structure AudioDecoder (δ : Type) where
  channels : ℕ
  /-- How many bytes a sample has. -/
  bytes : ℕ
  send : δ → Option (List UInt8) → Option (δ × List (AudioFrame channels bytes))

namespace DecodeAudio

variable {π δ ω : Type}

/-! ### The code -/

def inbufSize : ℕ := 20480

def refillThresh : ℕ := 4096

/-- `AV_INPUT_BUFFER_PADDING_SIZE` -/
def padding : ℕ := 64

/-- The loop over the samples of a frame, of which `i` have been written. -/
def writeFrame {channels bytes : ℕ} (f : AudioFrame channels bytes) (outfile : List UInt8) :
    Exec (List UInt8) :=
  (List.range f.nbSamples).foldlM (fun outfile i =>
    (List.range channels).foldlM (fun outfile (ch : ℕ) => do
      let plane ← nth f.data ch
      let sample ← bytesAt plane (bytes * i) bytes
      pure (outfile ++ sample)) outfile) outfile

/-- `decode(dec_ctx, pkt, frame, outfile)`; it may leave the program. -/
def decode (D : AudioDecoder δ) (x : δ × List UInt8) (pkt : Option (List UInt8)) :
    Exec (Option (δ × List UInt8)) :=
  match D.send x.1 pkt with
  | none => pure none
  | some (d, frames) => do
    let outfile ← frames.foldlM (fun outfile f => writeFrame f outfile) x.2
    pure (some (d, outfile))

/-- The variables of the loop in `main`; `out` is the decoder with the output. -/
structure Reader (π ω : Type) extends Feeder π ω where
  /-- What has not been read of the file. -/
  file : List UInt8

/-- What is left is moved to the front, and the array is filled up. -/
def refill (s : Reader π ω) : Exec (Reader π ω) := do
  let left ← bytesAt s.inbuf s.data s.dataSize
  let inbuf ← storeAt s.inbuf 0 left
  let (chunk, file) := fread (inbufSize - s.dataSize) s.file
  let inbuf ← storeAt inbuf s.dataSize chunk
  pure { s with inbuf := inbuf, data := 0, dataSize := s.dataSize + chunk.length, file := file }

/-- One turn of the loop in `main`; the program is left where the parser or the decoder fails. -/
def turn (P : Parser π) (emit : ω → List UInt8 → Exec (Option ω)) (s : Reader π ω) :
    Exec (Option (Reader π ω)) := do
  match ← s.call P emit with
  | none => pure none
  | some (_, t) =>
    let s := { s with toFeeder := t }
    if s.dataSize < refillThresh then do
      let s ← refill s
      pure (some s)
    else pure (some s)

/-- The loop in `main`. -/
def decodeLoop (P : Parser π) (emit : ω → List UInt8 → Exec (Option ω)) (s : Reader π ω) :
    Result (Option (Reader π ω)) :=
  show Exec (Option (Reader π ω)) from do
    let +zeta decodeLoop : type_of% decodeLoop := by apply decodeLoop
    if 0 < s.dataSize then
      match ← turn P emit s with
      | none => pure none
      | some s => (decodeLoop P emit s : Exec (Option (Reader π ω)))
    else
      pure (some s)
partial_fixpoint

/-- `main`, from the moment in which the files are open: what is in the output when it returns.
`junk` is what the array holds at first. -/
def main (P : Parser π) (D : AudioDecoder δ) (p : π) (d : δ) (junk file : List UInt8) :
    Exec (Option (List UInt8)) := do
  let (chunk, file) := fread inbufSize file
  let inbuf ← storeAt junk 0 chunk
  let s : Reader π (δ × List UInt8) :=
    { inbuf := inbuf, data := 0, dataSize := chunk.length, parser := p, out := (d, []), file := file }
  match ← (decodeLoop P (fun x pkt => decode D x (some pkt)) s :
    Exec (Option (Reader π (δ × List UInt8)))) with
  | none => pure none
  | some s => do
    let out ← decode D s.out none
    pure (out.map Prod.snd)

/-! ### The samples -/

variable {channels bytes : ℕ}

/-- **The samples of a frame, as they are written**: those of all channels, one after the other. -/
def packed (f : AudioFrame channels bytes) : List UInt8 :=
  (List.range f.nbSamples).flatMap fun i => f.data.flatMap fun plane =>
    (plane.drop (bytes * i)).take bytes

theorem writeFrame_eq (f : AudioFrame channels bytes) (outfile : List UInt8) :
    writeFrame f outfile = pure (outfile ++ packed f) := by
  refine foldlM_write (fun i hi out => ?_) outfile
  have hi := List.mem_range.mp hi
  -- a sample of a channel
  have hsample : ∀ plane ∈ f.data,
      bytesAt plane (bytes * i) bytes = pure ((plane.drop (bytes * i)).take bytes) := by
    intro plane hplane
    refine bytesAt_eq (le_trans ?_ (f.length_plane plane hplane))
    rw [← Nat.mul_succ]
    exact Nat.mul_le_mul_left bytes hi
  have hrange : List.range channels = List.range f.data.length := by rw [f.length_data]
  rw [hrange, foldlM_range_length
    (g := fun out plane => bytesAt plane (bytes * i) bytes >>= fun sample => pure (out ++ sample))
    (fun ch plane hch t => by rw [nth_eq hch, pure_bind])]
  refine foldlM_write (fun plane hplane out => ?_) out
  rw [hsample plane hplane, pure_bind]

theorem length_sample {f : AudioFrame channels bytes} {i : ℕ} (hi : i < f.nbSamples)
    {plane : List UInt8} (hplane : plane ∈ f.data) :
    ((plane.drop (bytes * i)).take bytes).length = bytes := by
  have hle : bytes * (i + 1) ≤ plane.length :=
    (Nat.mul_le_mul_left bytes hi).trans (f.length_plane plane hplane)
  rw [Nat.mul_succ] at hle
  rw [List.length_take, List.length_drop]
  omega

theorem length_row (f : AudioFrame channels bytes) {i : ℕ} (hi : i ∈ List.range f.nbSamples) :
    (f.data.flatMap fun plane => (plane.drop (bytes * i)).take bytes).length = channels * bytes := by
  rw [length_flatMap_of_length fun plane hplane => length_sample (List.mem_range.mp hi) hplane,
    f.length_data]

/-- Two samples of one byte, in two channels. -/
def twoSamples : AudioFrame 2 1 where
  nbSamples := 2
  data := [[1, 2], [3, 4]]
  length_data := rfl
  length_plane := by decide

/-- What comes of a packet. -/
def decoded (D : AudioDecoder δ) (x : δ × List UInt8) (pkt : Option (List UInt8)) :
    Option (δ × List UInt8) :=
  (D.send x.1 pkt).map fun r => (r.1, x.2 ++ r.2.flatMap packed)

theorem decode_eq (D : AudioDecoder δ) (x : δ × List UInt8) (pkt : Option (List UInt8)) :
    decode D x pkt = pure (decoded D x pkt) := by
  rw [decode, decoded]
  cases D.send x.1 pkt with
  | none => rfl
  | some r =>
    obtain ⟨d, frames⟩ := r
    show (frames.foldlM _ x.2 >>= _) = _
    rw [foldlM_write fun f _ out => writeFrame_eq f out, pure_bind]
    rfl

/-! ### The bytes -/

variable {P : Parser π} {emit : ω → List UInt8 → Exec (Option ω)} {e : ω → List UInt8 → Option ω}
  {s : Reader π ω}

/-- **What is left of the file**: in the array, and behind it. -/
def Reader.rest (s : Reader π ω) : List UInt8 := s.window ++ s.file

/-- The array has room for what is in it. -/
structure Fits (s : Reader π ω) : Prop where
  length : s.inbuf.length = inbufSize + padding
  le : s.data + s.dataSize ≤ inbufSize

/-- Before each turn the parser has enough to look at. -/
def Ahead (s : Reader π ω) : Prop := refillThresh ≤ s.dataSize ∨ s.file = []

theorem Fits.le_length (h : Fits s) : s.data + s.dataSize ≤ s.inbuf.length :=
  (h.le.trans (Nat.le_add_right _ padding)).trans_eq h.length.symm

/-- **Filling the array up** leaves what is left of the file as it is. -/
theorem refill_eq (h : Fits s) : ∃ s', refill s = pure s' ∧ Fits s' ∧ Ahead s' ∧
    s'.rest = s.rest ∧ s'.parser = s.parser ∧ s'.out = s.out := by
  have hlen := h.length
  have hle := h.le
  have hwindow := Feeder.length_window h.le_length
  have hread : bytesAt s.inbuf s.data s.dataSize = pure s.window := bytesAt_eq h.le_length
  generalize hw : s.window = w at hwindow hread
  have hchunk : (s.file.take (inbufSize - s.dataSize)).length ≤ inbufSize - s.dataSize :=
    List.length_take_le _ _
  generalize hc : s.file.take (inbufSize - s.dataSize) = chunk at hchunk
  have hmove : storeAt s.inbuf 0 w = pure (w ++ s.inbuf.drop s.dataSize) := by
    rw [storeAt_eq (by omega), List.take_zero, List.nil_append, Nat.zero_add, hwindow]
  have hlen' : (w ++ s.inbuf.drop s.dataSize).length = inbufSize + padding := by
    rw [List.length_append, List.length_drop]
    omega
  have hfill : storeAt (w ++ s.inbuf.drop s.dataSize) s.dataSize chunk =
      pure (w ++ (chunk ++ (w ++ s.inbuf.drop s.dataSize).drop (s.dataSize + chunk.length))) := by
    rw [storeAt_eq (by omega), List.take_left' hwindow]
  generalize ht : (w ++ s.inbuf.drop s.dataSize).drop (s.dataSize + chunk.length) = t at hfill
  have htlen : s.dataSize + chunk.length + t.length = inbufSize + padding := by
    rw [← ht, List.length_drop]
    omega
  have hrun : refill s = pure { s with
      inbuf := w ++ (chunk ++ t), data := 0, dataSize := s.dataSize + chunk.length
      file := s.file.drop (inbufSize - s.dataSize) } := by
    rw [refill, hread, pure_bind, hmove, pure_bind]
    show (storeAt _ s.dataSize (s.file.take (inbufSize - s.dataSize)) >>= _) = _
    rw [hc, hfill, pure_bind]
  have hthresh : refillThresh ≤ inbufSize := by decide
  refine ⟨_, hrun, ⟨?_, ?_⟩, ?_, ?_, rfl, rfl⟩
  · show (w ++ (chunk ++ t)).length = _
    rw [List.length_append, List.length_append]
    omega
  · show 0 + (s.dataSize + chunk.length) ≤ inbufSize
    omega
  · show refillThresh ≤ s.dataSize + chunk.length ∨ s.file.drop (inbufSize - s.dataSize) = []
    rcases Nat.lt_or_ge s.file.length (inbufSize - s.dataSize) with hlt | hge
    · exact .inr (List.drop_eq_nil_of_le hlt.le)
    · have hfull : chunk.length = inbufSize - s.dataSize := by
        rw [← hc, List.length_take, min_eq_left hge]
      exact .inl (by omega)
  · show ((w ++ (chunk ++ t)).drop 0).take (s.dataSize + chunk.length) ++
      s.file.drop (inbufSize - s.dataSize) = s.rest
    rw [Reader.rest, hw, List.drop_zero, ← List.append_assoc w,
      List.take_left' (by rw [List.length_append, hwindow]), List.append_assoc, ← hc,
      List.take_append_drop]

/-- **One turn** of the loop. -/
theorem turn_cases (h : Fits s) (ha : Ahead s) (hpos : 0 < s.dataSize)
    (hemit : ∀ x pkt, emit x pkt = pure (e x pkt)) :
    ∃ w, w ≠ [] ∧ w <+: s.rest ∧ (refillThresh ≤ w.length ∨ w = s.rest) ∧
      ((P.parse s.parser w = none ∧ turn P emit s = pure none) ∨
      (∃ q n pkt, P.parse s.parser w = some (q, n, pkt) ∧ emitted e s.out pkt = none ∧
        turn P emit s = pure none) ∨
      ∃ q n pkt y s', P.parse s.parser w = some (q, n, pkt) ∧ emitted e s.out pkt = some y ∧
        turn P emit s = pure (some s') ∧ Fits s' ∧ Ahead s' ∧ s'.rest = s.rest.drop n ∧
        s'.parser = q ∧ s'.out = y) := by
  have hlen := h.length
  have hle := h.le
  have hwindow := Feeder.length_window h.le_length
  refine ⟨s.window, ?_, List.prefix_append _ _, ?_, ?_⟩
  · exact List.ne_nil_of_length_pos (hwindow.symm ▸ hpos)
  · rw [hwindow]
    refine ha.imp_right fun hfile => ?_
    rw [Reader.rest, hfile, List.append_nil]
  rcases Feeder.call_cases (P := P) h.le_length hemit with ⟨hparse, hcall⟩ |
    ⟨q, n, pkt, hparse, he, hcall⟩ | ⟨q, n, pkt, y, t, hparse, he, hcall, hn, rfl, hwindow'⟩
  · refine .inl ⟨hparse, ?_⟩
    rw [turn, hcall, pure_bind]
  · refine .inr (.inl ⟨q, n, pkt, hparse, he, ?_⟩)
    rw [turn, hcall, pure_bind]
  · generalize hs₁ : ({ s with
      parser := q, out := y, data := s.data + n, dataSize := s.dataSize - n } : Reader π ω) = s₁
    have hturn : turn P emit s =
        if s₁.dataSize < refillThresh then refill s₁ >>= fun s => pure (some s)
        else pure (some s₁) := by
      rw [turn, hcall, pure_bind, ← hs₁]
    have hfits : Fits s₁ := by
      rw [← hs₁]
      exact ⟨hlen, show s.data + n + (s.dataSize - n) ≤ inbufSize by omega⟩
    have hrest : s₁.rest = s.rest.drop n := by
      rw [← hs₁]
      show Feeder.window _ ++ s.file = _
      rw [hwindow', Reader.rest, List.drop_append_of_le_length (hwindow.symm ▸ hn)]
    have hparser : s₁.parser = q ∧ s₁.out = y := by
      rw [← hs₁]
      exact ⟨rfl, rfl⟩
    refine .inr (.inr ⟨q, n, pkt, y, ?_⟩)
    by_cases hlt : s₁.dataSize < refillThresh
    · obtain ⟨s', hrefill, hfits', hahead, hrest', hp, ho⟩ := refill_eq hfits
      refine ⟨s', hparse, he, ?_, hfits', hahead, hrest'.trans hrest, hp.trans hparser.1,
        ho.trans hparser.2⟩
      rw [hturn, if_pos hlt, hrefill, pure_bind]
    · refine ⟨s₁, hparse, he, ?_, hfits, .inl (Nat.le_of_not_lt hlt), hrest, hparser⟩
      rw [hturn, if_neg hlt]

/-- **The loop feeds the parser** with what is left of the file. -/
theorem decodeLoop_eq (h : Fits s) (ha : Ahead s) (hemit : ∀ x pkt, emit x pkt = pure (e x pkt)) :
    ∃ r, decodeLoop P emit s = (pure r : Exec (Option (Reader π ω))) ∧
      Feed P e refillThresh s.parser s.out s.rest (r.map fun t => (t.parser, t.out)) := by
  -- the parser uses bytes, of which there are finitely many, or works on
  induction hm : toLex (s.rest.length, P.work s.parser) using WellFoundedLT.induction
    generalizing s with
  | ind m ih =>
    by_cases hpos : 0 < s.dataSize
    · obtain ⟨w, hw, hpre, hleast, ⟨hparse, hturn⟩ | ⟨q, n, pkt, hparse, he, hturn⟩ |
        ⟨q, n, pkt, y, s', hparse, he, hturn, hfits, hahead, hrest, hq, hy⟩⟩ :=
        turn_cases (P := P) h ha hpos hemit
      · refine ⟨none, ?_, .fail hw hpre hleast hparse⟩
        rw [decodeLoop, if_pos hpos, hturn, pure_bind]
      · refine ⟨none, ?_, .stop hw hpre hleast hparse he⟩
        rw [decodeLoop, if_pos hpos, hturn, pure_bind]
      · have hlt : toLex (s'.rest.length, P.work s'.parser) < m := by
          rw [← hm, Prod.Lex.toLex_lt_toLex, hrest, hq, List.length_drop]
          have hlen := List.length_pos_of_ne_nil hw
          have hle := hpre.length_le
          rcases Nat.eq_zero_or_pos n with rfl | hn
          · exact .inr ⟨rfl, P.work_lt _ _ _ _ hparse (.inl hw)⟩
          · exact .inl (by omega)
        obtain ⟨r, hrun, hfeed⟩ := ih _ hlt hfits hahead rfl
        refine ⟨r, ?_, ?_⟩
        · rw [decodeLoop, if_pos hpos, hturn, pure_bind]
          exact hrun
        · rw [hq, hy, hrest] at hfeed
          exact .feed hw hpre hleast hparse he hfeed
    · have hzero := Nat.eq_zero_of_not_pos hpos
      have hfile : s.file = [] := ha.resolve_left (by rw [hzero]; decide)
      have hrest : s.rest = [] := by
        rw [Reader.rest, Feeder.window, hzero, List.take_zero, hfile, List.append_nil]
      refine ⟨some s, ?_, ?_⟩
      · rw [decodeLoop, if_neg hpos]
      · rw [hrest]
        exact .done

/-- **The output of the program**: the parser is fed with the file, and what the decoder makes of its
packets is written, and what it makes of the end of the stream at last; or the program is left where
one of them fails. -/
def Decodes (P : Parser π) (D : AudioDecoder δ) (p : π) (d : δ) (file : List UInt8)
    (output : Option (List UInt8)) : Prop :=
  ∃ r, Feed P (fun x pkt => decoded D x (some pkt)) refillThresh p (d, []) file r ∧
    output = r.bind fun t => (decoded D t.2 none).map Prod.snd

/-- A decoder of packets that are samples of one byte, in two channels. -/
def pairs : AudioDecoder Unit where
  channels := 2
  bytes := 1
  send := fun _ pkt => some ((), match pkt with
    | some (a :: b :: _) =>
      [{ nbSamples := 1, data := [[a], [b]], length_data := rfl
         length_plane := by simp }]
    | _ => [])

/-- A parser whose packets are two bytes long. -/
def pairParser : Parser Unit where
  parse := fun _ w => some ((), min w.length 2, if 2 ≤ w.length then w.take 2 else [])
  used_le := by
    rintro p w q n pkt h
    cases h
    exact min_le_left _ _
  work := fun _ => 0
  work_lt := by
    rintro p w q pkt h hne
    obtain ⟨-, h⟩ := Prod.mk.inj (Option.some.inj h)
    obtain ⟨hzero, hpkt⟩ := Prod.mk.inj h
    have hlen : w.length = 0 := by omega
    obtain rfl := List.length_eq_zero_iff.mp hlen
    obtain hw | hp := hne
    · exact absurd rfl hw
    · exact absurd hpkt.symm hp

end DecodeAudio

end Candcpp
