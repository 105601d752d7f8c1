import Candcpp.Cpp.CString
import Candcpp.Cpp.Strided
import Candcpp.Text.Feed

/-!
# Decoding a video file

`library-study/ffmpeg/src/decode_video.c`: the bytes of a file are given to a parser, 4096 at a time,
and its packets to a decoder, whose pictures are saved, each of them in a file of its own.

A part of the file is used up before the next one is read. At the end of the file the parser is given
no bytes, as often as it has a packet left, and then the decoder is flushed
(`Candcpp.DecodeVideo.decodeVideo_returns`). Of a picture the luminance is saved; its rows may be
longer in memory than in the file (`Candcpp.DecodeVideo.pgm_row`).
-/

namespace Candcpp

open Cpp

/-! ### The decoder -/

/-- A picture: the rows of its first plane are `linesize` bytes apart. -/
structure VideoFrame where
  data : List UInt8
  linesize : ℕ
  width : ℕ
  height : ℕ
  fits : ∀ i < height, i * linesize + width ≤ data.length

/-- **A decoder**: a packet, or the end of the stream, is sent to it, and it has some pictures then,
or it fails. -/
structure VideoDecoder (δ : Type) where
  send : δ → Option (List UInt8) → Option (δ × List VideoFrame)

/-- A file that has been written: its name, and what is in it. -/
abbrev Saved := List UInt8 × List UInt8

namespace DecodeVideo

variable {π δ ω : Type}

/-! ### The code -/

def inbufSize : ℕ := 4096

/-- `AV_INPUT_BUFFER_PADDING_SIZE` -/
def padding : ℕ := 64

/-- What `snprintf` leaves in a buffer of 1024 bytes. -/
def nameSize : ℕ := 1023

/-- The first lines of a file, as they are printed. -/
def pgmHeader (xsize ysize : ℕ) : List UInt8 :=
  ascii "P5\n" ++ decimal xsize ++ ascii " " ++ decimal ysize ++ ascii "\n255\n"

/-- `pgm_save(buf, wrap, xsize, ysize, filename)`: what is written. -/
def pgmSave (buf : List UInt8) (wrap xsize ysize : ℕ) : Exec (List UInt8) :=
  (List.range ysize).foldlM (fun (out : List UInt8) i => do
    let row ← bytesAt buf (i * wrap) xsize
    pure (out ++ row)) (pgmHeader xsize ysize)

/-- The state of `decode`: the decoder, how many pictures it has had, and what has been saved. -/
structure Decoding (δ : Type) where
  dec : δ
  frameNum : ℕ
  saved : List Saved

/-- A picture is saved under its number. -/
def saveFrame (filename : List UInt8) (x : ℕ × List Saved) (f : VideoFrame) :
    Exec (ℕ × List Saved) := do
  let content ← pgmSave f.data f.linesize f.width f.height
  let name := (filename ++ ascii "-" ++ decimal (x.1 + 1 : ℕ)).take nameSize
  pure (x.1 + 1, x.2 ++ [(name, content)])

/-- `decode(dec_ctx, frame, pkt, filename)`; it may leave the program. -/
def decode (D : VideoDecoder δ) (filename : List UInt8) (x : Decoding δ)
    (pkt : Option (List UInt8)) : Exec (Option (Decoding δ)) :=
  match D.send x.dec pkt with
  | none => pure none
  | some (d, frames) => do
    let (frameNum, saved) ← frames.foldlM (saveFrame filename) (x.frameNum, x.saved)
    pure (some { dec := d, frameNum := frameNum, saved := saved })

/-- The loop that uses up what has been read. -/
def useLoop (P : Parser π) (emit : ω → List UInt8 → Exec (Option ω)) (eof : Bool)
    (s : Feeder π ω) : Result (Option (Feeder π ω)) :=
  show Exec (Option (Feeder π ω)) from do
    let +zeta useLoop : type_of% useLoop := by apply useLoop
    if 0 < s.dataSize ∨ eof then
      match ← s.call P emit with
      | none => pure none
      | some (pkt, s) =>
        if pkt = [] ∧ eof then pure (some s)
        else (useLoop P emit eof s : Exec (Option (Feeder π ω)))
    else
      pure (some s)
partial_fixpoint

/-- The loop that reads the file. -/
def readLoop (P : Parser π) (emit : ω → List UInt8 → Exec (Option ω)) (s : Feeder π ω)
    (file : List UInt8) : Result (Option (Feeder π ω)) :=
  show Exec (Option (Feeder π ω)) from do
    let +zeta readLoop : type_of% readLoop := by apply readLoop
    let (chunk, file) := fread inbufSize file
    let inbuf ← storeAt s.inbuf 0 chunk
    let eof := chunk.isEmpty
    let s := { s with inbuf := inbuf, data := 0, dataSize := chunk.length }
    match ← (useLoop P emit eof s : Exec (Option (Feeder π ω))) with
    | none => pure none
    | some s =>
      if eof then pure (some s) else (readLoop P emit s file : Exec (Option (Feeder π ω)))
partial_fixpoint

/-- `main`, from the moment in which the file is open: what has been saved when it returns. `inbuf` is
the array of the bytes. -/
def main (P : Parser π) (D : VideoDecoder δ) (p : π) (d : δ) (filename inbuf file : List UInt8) :
    Exec (Option (List Saved)) := do
  let s : Feeder π (Decoding δ) :=
    { inbuf := inbuf, data := 0, dataSize := 0, parser := p
      out := { dec := d, frameNum := 0, saved := [] } }
  match ← (readLoop P (fun x pkt => decode D filename x (some pkt)) s file :
    Exec (Option (Feeder π (Decoding δ)))) with
  | none => pure none
  | some s => do
    let out ← decode D filename s.out none
    pure (out.map Decoding.saved)

/-! ### The pictures -/

/-- **A picture, as it is saved**. -/
def pgm (f : VideoFrame) : List UInt8 :=
  pgmHeader f.width f.height ++ rowsAt f.data f.linesize f.width f.height

theorem pgmSave_eq (f : VideoFrame) :
    pgmSave f.data f.linesize f.width f.height = pure (pgm f) := by
  refine foldlM_write (fun i hi out => ?_) _
  rw [bytesAt_eq (f.fits i (List.mem_range.mp hi)), pure_bind]

/-- A picture of two rows, which are three bytes apart. -/
def twoRows : VideoFrame where
  data := [1, 2, 0, 3, 4]
  linesize := 3
  width := 2
  height := 2
  fits := by decide

/-- What becomes of a picture. -/
def savedFrame (filename : List UInt8) (x : ℕ × List Saved) (f : VideoFrame) : ℕ × List Saved :=
  (x.1 + 1, x.2 ++ [((filename ++ ascii "-" ++ decimal (x.1 + 1 : ℕ)).take nameSize, pgm f)])

/-- What comes of a packet. -/
def decoded (D : VideoDecoder δ) (filename : List UInt8) (x : Decoding δ)
    (pkt : Option (List UInt8)) : Option (Decoding δ) :=
  (D.send x.dec pkt).map fun r =>
    { dec := r.1
      frameNum := (r.2.foldl (savedFrame filename) (x.frameNum, x.saved)).1
      saved := (r.2.foldl (savedFrame filename) (x.frameNum, x.saved)).2 }

theorem decode_eq (D : VideoDecoder δ) (filename : List UInt8) (x : Decoding δ)
    (pkt : Option (List UInt8)) :
    decode D filename x pkt = pure (decoded D filename x pkt) := by
  have hsave : saveFrame filename = fun x f => pure (savedFrame filename x f) := by
    funext x f
    rw [saveFrame, pgmSave_eq, pure_bind]
    rfl
  rw [decode, decoded]
  cases D.send x.dec pkt with
  | none => rfl
  | some r =>
    obtain ⟨d, frames⟩ := r
    show (frames.foldlM (saveFrame filename) (x.frameNum, x.saved) >>= _) = _
    rw [hsave, List.foldlM_pure, pure_bind]
    rfl

/-! ### The bytes -/

variable {P : Parser π} {emit : ω → List UInt8 → Exec (Option ω)} {e : ω → List UInt8 → Option ω}
  {s : Feeder π ω}

/-- **What has been read is used up.** -/
theorem useLoop_eq (h : s.data + s.dataSize ≤ s.inbuf.length)
    (hemit : ∀ x pkt, emit x pkt = pure (e x pkt)) :
    ∃ r, useLoop P emit false s = (pure r : Exec (Option (Feeder π ω))) ∧
      Feed P e 1 s.parser s.out s.window (r.map fun t => (t.parser, t.out)) ∧
      ∀ t, r = some t → t.inbuf = s.inbuf := by
  -- the parser uses bytes, of which there are finitely many, or works on
  induction hm : toLex (s.dataSize, P.work s.parser) using WellFoundedLT.induction
    generalizing s with
  | ind m ih =>
    have hlen := Feeder.length_window h
    by_cases hpos : 0 < s.dataSize
    · have hne : s.window ≠ [] := List.ne_nil_of_length_pos (hlen.symm ▸ hpos)
      have hone : 1 ≤ s.window.length ∨ s.window = s.window := .inr rfl
      have hcond : 0 < s.dataSize ∨ false = true := .inl hpos
      rcases Feeder.call_cases (P := P) h hemit with ⟨hparse, hcall⟩ |
        ⟨q, n, pkt, hparse, he, hcall⟩ | ⟨q, n, pkt, y, t, hparse, he, hcall, hn, ht, hwindow⟩
      · refine ⟨none, ?_, .fail hne List.prefix_rfl hone hparse, nofun⟩
        rw [useLoop, if_pos hcond, hcall, pure_bind]
      · refine ⟨none, ?_, .stop hne List.prefix_rfl hone hparse he, nofun⟩
        rw [useLoop, if_pos hcond, hcall, pure_bind]
      · have hlt : toLex (t.dataSize, P.work t.parser) < m := by
          rw [← hm, Prod.Lex.toLex_lt_toLex, ht]
          rcases Nat.eq_zero_or_pos n with rfl | hpos'
          · exact .inr ⟨rfl, P.work_lt _ _ _ _ hparse (.inl hne)⟩
          · exact .inl (Nat.sub_lt hpos hpos')
        have hle : t.data + t.dataSize ≤ t.inbuf.length := by
          rw [ht]
          show s.data + n + (s.dataSize - n) ≤ s.inbuf.length
          omega
        obtain ⟨r, hrun, hfeed, hinbuf⟩ := ih _ hlt hle rfl
        refine ⟨r, ?_, ?_, fun u hu => (hinbuf u hu).trans (by rw [ht])⟩
        · rw [useLoop, if_pos hcond, hcall, pure_bind]
          show (if pkt = [] ∧ false = true then _ else _) = _
          rw [if_neg (by simp)]
          exact hrun
        · have hq : t.parser = q ∧ t.out = y := by
            rw [ht]
            exact ⟨rfl, rfl⟩
          rw [hq.1, hq.2, hwindow] at hfeed
          exact .feed hne List.prefix_rfl hone hparse he hfeed
    · have hnil : s.window = [] := List.length_eq_zero_iff.mp (by omega)
      refine ⟨some s, ?_, ?_, fun t ht => by rw [Option.some.inj ht]⟩
      · rw [useLoop, if_neg (by simpa using hpos)]
      · rw [hnil]
        exact .done

/-- **The end of the file**: the parser gives its last packets. -/
theorem useLoop_eof (h : s.data ≤ s.inbuf.length) (hzero : s.dataSize = 0)
    (hemit : ∀ x pkt, emit x pkt = pure (e x pkt)) :
    ∃ r, useLoop P emit true s = (pure r : Exec (Option (Feeder π ω))) ∧
      Flush P e s.parser s.out (r.map fun t => (t.parser, t.out)) := by
  induction hm : P.work s.parser using Nat.strong_induction_on generalizing s with
  | _ m ih =>
    have hle : s.data + s.dataSize ≤ s.inbuf.length := by omega
    have hnil : s.window = [] := by rw [Feeder.window, hzero, List.take_zero]
    have hcond : 0 < s.dataSize ∨ true = true := .inr rfl
    rcases Feeder.call_cases (P := P) hle hemit with ⟨hparse, hcall⟩ |
      ⟨q, n, pkt, hparse, he, hcall⟩ | ⟨q, n, pkt, y, t, hparse, he, hcall, hn, ht, -⟩
    · refine ⟨none, ?_, .fail (hnil ▸ hparse)⟩
      rw [useLoop, if_pos hcond, hcall, pure_bind]
    · refine ⟨none, ?_, .stop (hnil ▸ hparse) he⟩
      rw [useLoop, if_pos hcond, hcall, pure_bind]
    · rw [hnil] at hparse
      have hn₀ : n = 0 := by omega
      have hq : t.parser = q ∧ t.out = y := by
        rw [ht]
        exact ⟨rfl, rfl⟩
      by_cases hpkt : pkt = []
      · rw [emitted, if_pos hpkt] at he
        refine ⟨some t, ?_, ?_⟩
        · rw [useLoop, if_pos hcond, hcall, pure_bind]
          exact if_pos ⟨hpkt, rfl⟩
        · rw [Option.map_some, hq.1, hq.2, ← Option.some.inj he]
          exact .last (hpkt ▸ hparse)
      · have hlt : P.work t.parser < m := by
          rw [← hm, hq.1]
          exact P.work_lt _ _ _ _ (hn₀ ▸ hparse) (.inr hpkt)
        have ht₀ : t.data ≤ t.inbuf.length ∧ t.dataSize = 0 := by
          rw [ht, hn₀]
          exact ⟨h, hzero⟩
        obtain ⟨r, hrun, hflush⟩ := ih _ hlt ht₀.1 ht₀.2 rfl
        rw [hq.1, hq.2] at hflush
        refine ⟨r, ?_, .more hpkt hparse he hflush⟩
        rw [useLoop, if_pos hcond, hcall, pure_bind]
        show (if pkt = [] ∧ true = true then _ else _) = _
        rw [if_neg fun h => hpkt h.1]
        exact hrun

/-- What a file comes to: the parser is fed with it, and gives its last packets. -/
def FedWith (P : Parser π) (e : ω → List UInt8 → Option ω) (p : π) (x : ω) (file : List UInt8)
    (r : Option (π × ω)) : Prop :=
  ∃ fed, Feed P e 1 p x file fed ∧ (fed = none → r = none) ∧
    ∀ q y, fed = some (q, y) → Flush P e q y r

/-- **The loop that reads the file.** -/
theorem readLoop_eq (h : inbufSize ≤ s.inbuf.length)
    (hemit : ∀ x pkt, emit x pkt = pure (e x pkt)) (file : List UInt8) :
    ∃ r, readLoop P emit s file = (pure r : Exec (Option (Feeder π ω))) ∧
      FedWith P e s.parser s.out file (r.map fun t => (t.parser, t.out)) := by
  induction hm : file.length using Nat.strong_induction_on generalizing s file with
  | _ m ih =>
    have hchunk : (file.take inbufSize).length ≤ inbufSize := List.length_take_le _ _
    have hfile : file.take inbufSize ++ file.drop inbufSize = file := List.take_append_drop _ _
    generalize hc : file.take inbufSize = chunk at hchunk hfile
    have hstore : storeAt s.inbuf 0 chunk = pure (chunk ++ s.inbuf.drop chunk.length) := by
      rw [storeAt_eq (by omega), List.take_zero, List.nil_append, Nat.zero_add]
    generalize ht : ({ s with
      inbuf := chunk ++ s.inbuf.drop chunk.length, data := 0, dataSize := chunk.length } :
        Feeder π ω) = t
    have hlen : t.inbuf.length = s.inbuf.length := by
      rw [← ht]
      show (chunk ++ s.inbuf.drop chunk.length).length = _
      rw [List.length_append, List.length_drop]
      omega
    have hsame : t.parser = s.parser ∧ t.out = s.out := by
      rw [← ht]
      exact ⟨rfl, rfl⟩
    have hsize : t.data + t.dataSize = chunk.length ∧ t.window = chunk := by
      rw [← ht]
      refine ⟨Nat.zero_add _, ?_⟩
      show ((chunk ++ s.inbuf.drop chunk.length).drop 0).take chunk.length = chunk
      rw [List.drop_zero, List.take_left]
    by_cases hnil : chunk = []
    · -- the end of the file
      have heof : chunk.isEmpty = true := List.isEmpty_iff.mpr hnil
      have hzero : t.data + t.dataSize = 0 := by rw [hsize.1, hnil, List.length_nil]
      have hfnil : file = [] := by
        rcases List.take_eq_nil_iff.mp (hc.trans hnil) with hbad | hfnil
        · exact absurd hbad (by decide)
        · exact hfnil
      obtain ⟨r, huse, hflush⟩ := useLoop_eof (P := P) (s := t) (by omega) (by omega) hemit
      rw [hsame.1, hsame.2] at hflush
      refine ⟨r, ?_, some (s.parser, s.out), hfnil ▸ .done, nofun, ?_⟩
      · rw [readLoop]
        show (storeAt s.inbuf 0 (file.take inbufSize) >>= _) = _
        rw [hc, hstore, pure_bind, ht, heof]
        dsimp only
        rw [huse, pure_bind]
        cases r <;> rfl
      · intro q y hqy
        obtain ⟨rfl, rfl⟩ := Prod.mk.inj (Option.some.inj hqy)
        exact hflush
    · have heof : chunk.isEmpty = false := by simpa using hnil
      have hpos := List.length_pos_of_ne_nil hnil
      obtain ⟨r, huse, hfeed, hinbuf⟩ := useLoop_eq (P := P) (s := t) (by omega) hemit
      rw [hsame.1, hsame.2, hsize.2] at hfeed
      cases r with
      | none =>
        refine ⟨none, ?_, none, ?_, fun _ => rfl, nofun⟩
        · rw [readLoop]
          show (storeAt s.inbuf 0 (file.take inbufSize) >>= _) = _
          rw [hc, hstore, pure_bind, ht, heof]
          dsimp only
          rw [huse, pure_bind]
        · rw [← hfile]
          exact hfeed.append nofun fun _ => rfl
      | some u =>
        have hlt : (file.drop inbufSize).length < m := by
          have hlen' := congrArg List.length hfile
          rw [List.length_append] at hlen'
          omega
        have hulen : inbufSize ≤ u.inbuf.length := by
          rw [hinbuf u rfl, hlen]
          exact h
        obtain ⟨r, hrun, fed, hfed, hnone, hsome⟩ := ih _ hlt hulen (file.drop inbufSize) rfl
        refine ⟨r, ?_, fed, ?_, hnone, hsome⟩
        · rw [readLoop]
          show (storeAt s.inbuf 0 (file.take inbufSize) >>= _) = _
          rw [hc, hstore, pure_bind, ht, heof]
          dsimp only
          rw [huse, pure_bind]
          exact hrun
        · rw [← hfile]
          refine hfeed.append (fun q y hqy => ?_) nofun
          obtain ⟨rfl, rfl⟩ := Prod.mk.inj (Option.some.inj hqy)
          exact hfed

/-- **What has been saved when the program returns**: the parser is fed with the file, and gives its
last packets; the pictures of each packet are saved, and at last those that the decoder still has.
The program is left where the parser or the decoder fails. -/
def Saves (P : Parser π) (D : VideoDecoder δ) (p : π) (d : δ) (filename file : List UInt8)
    (saved : Option (List Saved)) : Prop :=
  ∃ r, FedWith P (fun x pkt => decoded D filename x (some pkt)) p
      { dec := d, frameNum := 0, saved := [] } file r ∧
    saved = r.bind fun t => (decoded D filename t.2 none).map Decoding.saved

/-- A parser whose packets are single bytes. -/
def byteParser : Parser Unit where
  parse := fun _ w => some ((), min w.length 1, w.take 1)
  used_le := by
    rintro p w q n pkt h
    cases h
    exact min_le_left _ _
  work := fun _ => 0
  work_lt := by
    rintro p w q pkt h hne
    obtain ⟨-, h⟩ := Prod.mk.inj (Option.some.inj h)
    obtain ⟨hzero, hpkt⟩ := Prod.mk.inj h
    have hlen : w.length = 0 := by omega
    obtain rfl := List.length_eq_zero_iff.mp hlen
    obtain hw | hp := hne
    · exact absurd rfl hw
    · exact absurd hpkt.symm hp

/-- A decoder that gives the picture of a packet when the next one comes. -/
def lateDecoder : VideoDecoder ℕ where
  send := fun n pkt => some (if pkt.isSome then n + 1 else 0, if n = 0 then [] else [twoRows])

end DecodeVideo

end Candcpp
