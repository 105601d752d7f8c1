import Candcpp.Ffmpeg.DecodeVideo

/-!
# Encoding a video

`library-study/ffmpeg/src/encode_video.c`: twenty-five pictures are read from a file, and each of
them is copied into a frame and sent to an encoder, whose packets are written to another file.

In the file the planes of a picture follow each other without gaps; in a frame each plane is an array
of its own, with rows that may be longer than the picture is wide. **What the frame shows is the
picture, whatever the lengths of its rows are, and so the luminance that `decode_video.c` saves of
it is the first plane in the file** (`Candcpp.EncodeVideo.pgm_fillFrame`). The output is that of an
encoder that is sent the pictures of the file, if there are enough of them
(`Candcpp.EncodeVideo.encodeVideo_returns`).
-/

namespace Candcpp

open Cpp

/-- **An encoder**: a picture with its time, or the end of the stream, is sent to it, and it has some
packets then, or it fails. It sees the pictures only, not what is between the rows in memory. -/
structure VideoEncoder (ε : Type) where
  send : ε → Option (List UInt8 × ℕ) → Option (ε × List (List UInt8))

namespace EncodeVideo

variable {ε : Type}

/-! ### The code -/

/-- A plane of a frame: its rows are `linesize` bytes apart. -/
structure Plane where
  data : List UInt8
  linesize : ℕ

/-- A frame: its planes `data[0]`, `data[1]` and `data[2]`. -/
structure YuvFrame where
  y : Plane
  u : Plane
  v : Plane

/-- `av_image_get_buffer_size(AV_PIX_FMT_YUV420P, width, height, 1)` -/
def frameSize (width height : ℕ) : ℕ :=
  width * height + 2 * ((width + 1) / 2 * ((height + 1) / 2))

/-- The loops that copy a picture into a frame. -/
def fillFrame (yuv : List UInt8) (width height : ℕ) (f : YuvFrame) : Exec YuvFrame := do
  let startU := width * height
  let startV := startU + width * height / 4
  let y ← copyRows yuv 0 width height f.y.linesize f.y.data
  let (u, v) ← (List.range (height / 2)).foldlM (fun (uv : List UInt8 × List UInt8) y =>
    (List.range (width / 2)).foldlM (fun (uv : List UInt8 × List UInt8) x => do
      let p ← nth yuv (startU + (y * (width / 2) + x) : ℕ)
      let u ← setNth uv.1 (y * f.u.linesize + x : ℕ) p
      let q ← nth yuv (startV + (y * (width / 2) + x) : ℕ)
      let v ← setNth uv.2 (y * f.v.linesize + x : ℕ) q
      pure (u, v)) uv) (f.u.data, f.v.data)
  pure { y := { f.y with data := y }, u := { f.u with data := u }, v := { f.v with data := v } }

/-- The bytes that a plane shows. -/
def Plane.shown (p : Plane) (width height : ℕ) : List UInt8 := rowsAt p.data p.linesize width height

/-- **What a frame shows**: its planes, of which two have a quarter of the pixels. -/
def YuvFrame.shown (f : YuvFrame) (width height : ℕ) : List UInt8 :=
  f.y.shown width height ++
    (f.u.shown (width / 2) (height / 2) ++ f.v.shown (width / 2) (height / 2))

/-- The encoder, and what has been written. -/
structure Encoding (ε : Type) where
  enc : ε
  outfile : List UInt8

/-- `encode(enc_ctx, frame, pkt, outfile)`; it may leave the program. -/
def encode (E : VideoEncoder ε) (s : Encoding ε) (frame : Option (List UInt8 × ℕ)) :
    Option (Encoding ε) :=
  match E.send s.enc frame with
  | none => none
  | some (e, packets) =>
    some { enc := e, outfile := packets.foldl (fun out pkt => out ++ pkt) s.outfile }

/-- How the program ends. -/
inductive Ended where
  /-- `exit(1)` -/
  | exited
  /-- `main` returns; this has been written. -/
  | returned (ret : ℤ) (outfile : List UInt8)

/-- The loop over the pictures, for `n` more of them, from the picture `i` on. `frames i` is the
frame as `av_frame_make_writable` leaves it. -/
def frameLoop (E : VideoEncoder ε) (frames : ℕ → YuvFrame) (width height : ℕ) :
    ℕ → ℕ → Encoding ε → List UInt8 → Exec (Except Ended (Encoding ε))
  | 0, _, s, _ => pure (.ok s)
  | n + 1, i, s, input => do
    let (yuv, input) := fread (frameSize width height) input
    if yuv.length ≠ frameSize width height then pure (.error (.returned (-1) s.outfile))
    else do
      let f ← fillFrame yuv width height (frames i)
      match encode E s (some (f.shown width height, i)) with
      | none => pure (.error .exited)
      | some s => frameLoop E frames width height n (i + 1) s input

def width : ℕ := 1920

def height : ℕ := 1080

/-- How many pictures are encoded. -/
def rounds : ℕ := 25

def endcode : List UInt8 := [0, 0, 1, 0xb7]

/-- `main`, from the moment in which the files are open. `mpeg` says that the codec is one of the two
whose streams get an end code. -/
def main (E : VideoEncoder ε) (e : ε) (mpeg : Bool) (frames : ℕ → YuvFrame) (input : List UInt8) :
    Exec Ended := do
  match ← frameLoop E frames width height rounds 0 { enc := e, outfile := [] } input with
  | .error r => pure r
  | .ok s =>
    match encode E s none with
    | none => pure .exited
    | some s => pure (.returned 0 (if mpeg then s.outfile ++ endcode else s.outfile))

/-! ### One picture -/

/-- A plane has room for so many rows of a width. -/
structure Plane.Fits (p : Plane) (width height : ℕ) : Prop where
  le_linesize : width ≤ p.linesize
  le_length : ∀ i < height, i * p.linesize + width ≤ p.data.length

/-- A frame has room for a picture. -/
structure YuvFrame.Fits (f : YuvFrame) (width height : ℕ) : Prop where
  y : f.y.Fits width height
  u : f.u.Fits (width / 2) (height / 2)
  v : f.v.Fits (width / 2) (height / 2)

variable {w h : ℕ} {yuv : List UInt8} {f : YuvFrame}

/-- The planes of a picture are all of it. -/
theorem frameSize_eq (hw : 2 ∣ w) (hh : 2 ∣ h) :
    frameSize w h = h * w + (h / 2 * (w / 2) + h / 2 * (w / 2)) ∧
      w * h + w * h / 4 = h * w + h / 2 * (w / 2) := by
  obtain ⟨a, rfl⟩ := hw
  obtain ⟨b, rfl⟩ := hh
  have hquarter : 2 * a * (2 * b) / 4 = b * a := by
    rw [show 2 * a * (2 * b) = 4 * (b * a) by ring, Nat.mul_div_cancel_left _ (by decide)]
  have ha : (2 * a + 1) / 2 = a ∧ 2 * a / 2 = a := by omega
  have hb : (2 * b + 1) / 2 = b ∧ 2 * b / 2 = b := by omega
  rw [frameSize, hquarter, ha.1, ha.2, hb.1, hb.2]
  constructor <;> ring

/-- **A picture is copied into a frame**: the frame shows it then. -/
theorem fillFrame_eq (hw : 2 ∣ w) (hh : 2 ∣ h) (hf : f.Fits w h)
    (hyuv : yuv.length = frameSize w h) :
    ∃ g, fillFrame yuv w h f = pure g ∧ g.shown w h = yuv ∧ g.y.shown w h = yuv.take (h * w) ∧
      g.y.Fits w h ∧ ∀ k, (∀ i < h, ∀ x < w, k ≠ i * f.y.linesize + x) →
        g.y.data[k]? = f.y.data[k]? := by
  obtain ⟨hsize, hstart⟩ := frameSize_eq hw hh
  rw [hsize] at hyuv
  generalize hn : h / 2 * (w / 2) = n at hyuv hstart
  have hroomY : 0 + h * w ≤ yuv.length := by omega
  have hroomU : w * h + h / 2 * (w / 2) ≤ yuv.length := by
    rw [hn, Nat.mul_comm w h]
    omega
  have hroomV : w * h + w * h / 4 + h / 2 * (w / 2) ≤ yuv.length := by
    rw [hn, hstart]
    omega
  obtain ⟨y, hy, hylen, hyrows, helse⟩ := copyRows_eq hf.y.le_linesize hroomY hf.y.le_length
  obtain ⟨u, hu, -, hurows, -⟩ := copyRows_eq hf.u.le_linesize hroomU hf.u.le_length
  obtain ⟨v, hv, -, hvrows, -⟩ := copyRows_eq hf.v.le_linesize hroomV hf.v.le_length
  -- the loop over two planes is a loop over each of them
  have huv : (List.range (h / 2)).foldlM (fun (uv : List UInt8 × List UInt8) y =>
      (List.range (w / 2)).foldlM (fun (uv : List UInt8 × List UInt8) x => do
        let p ← nth yuv (w * h + (y * (w / 2) + x) : ℕ)
        let u ← setNth uv.1 (y * f.u.linesize + x : ℕ) p
        let q ← nth yuv (w * h + w * h / 4 + (y * (w / 2) + x) : ℕ)
        let v ← setNth uv.2 (y * f.v.linesize + x : ℕ) q
        pure (u, v)) uv) (f.u.data, f.v.data) = pure (u, v) :=
    foldlM_prod (fun y _ s t s' t' hs ht => foldlM_prod (fun x _ s t s' t' hs ht => by
      obtain ⟨p, hp, hs⟩ := Exec.bind_eq_pure.mp hs
      obtain ⟨q, hq, ht⟩ := Exec.bind_eq_pure.mp ht
      rw [hp, pure_bind, hs, pure_bind, hq, pure_bind, ht, pure_bind]) hs ht) hu hv
  refine ⟨⟨⟨y, f.y.linesize⟩, ⟨u, f.u.linesize⟩, ⟨v, f.v.linesize⟩⟩, ?_, ?_, hyrows,
    ⟨hf.y.le_linesize, fun i hi => (hf.y.le_length i hi).trans_eq hylen.symm⟩, helse⟩
  · rw [fillFrame]
    dsimp only
    rw [hy, pure_bind, huv, pure_bind]
  · show rowsAt y _ w h ++ (rowsAt u _ (w / 2) (h / 2) ++ rowsAt v _ (w / 2) (h / 2)) = yuv
    rw [hyrows, hurows, hvrows, hstart, hn, Nat.mul_comm w h, List.drop_zero, ← List.drop_drop,
      List.take_of_length_le (l := List.drop n _) (by simp only [List.length_drop]; omega),
      List.take_append_drop, List.take_append_drop]

/-- A frame for two by two pixels, whose rows are three bytes apart. -/
def smallFrame : YuvFrame where
  y := { data := [0, 0, 9, 0, 0], linesize := 3 }
  u := { data := [0], linesize := 3 }
  v := { data := [0], linesize := 3 }

theorem smallFrame_fits : smallFrame.Fits 2 2 where
  y := ⟨by decide, by decide⟩
  u := ⟨by decide, by decide⟩
  v := ⟨by decide, by decide⟩

/-- What comes of a frame. -/
def encoded (E : VideoEncoder ε) (s : Encoding ε) (frame : Option (List UInt8 × ℕ)) :
    Option (Encoding ε) :=
  (E.send s.enc frame).map fun r => { enc := r.1, outfile := s.outfile ++ r.2.flatten }

theorem encode_eq (E : VideoEncoder ε) (s : Encoding ε) (frame : Option (List UInt8 × ℕ)) :
    encode E s frame = encoded E s frame := by
  have hpackets : ∀ (packets : List (List UInt8)) (out : List UInt8),
      packets.foldl (fun out pkt => out ++ pkt) out = out ++ packets.flatten := by
    intro packets
    induction packets with
    | nil => exact fun out => (List.append_nil out).symm
    | cons pkt packets ih =>
      intro out
      rw [List.foldl_cons, ih, List.flatten_cons, List.append_assoc]
  rw [encode, encoded]
  cases E.send s.enc frame with
  | none => rfl
  | some r => exact congrArg some (congrArg (Encoding.mk r.1) (hpackets _ _))

/-- The first pictures of a file, which have `size` bytes each, with their times from `i` on. -/
def pictures (size n i : ℕ) (input : List UInt8) : List (List UInt8 × ℕ) :=
  (List.range n).map fun k => ((input.drop (k * size)).take size, i + k)

/-- What comes of some pictures. -/
def encodedAll (E : VideoEncoder ε) (s : Encoding ε) (pics : List (List UInt8 × ℕ)) :
    Option (Encoding ε) :=
  pics.foldlM (fun s pic => encoded E s (some pic)) s

/-- How the loop ends, if there are enough pictures or `few`. -/
def loopEnd (few : Bool) : Option (Encoding ε) → Except Ended (Encoding ε)
  | none => .error .exited
  | some s => if few then .error (.returned (-1) s.outfile) else .ok s

theorem pictures_succ (size n i : ℕ) (input : List UInt8) :
    pictures size (n + 1) i input =
      (input.take size, i) :: pictures size n (i + 1) (input.drop size) := by
  rw [pictures, List.range_succ_eq_map, List.map_cons, List.map_map, Nat.zero_mul, List.drop_zero,
    Nat.add_zero]
  refine congrArg _ (List.map_congr_left fun k _ => ?_)
  rw [Function.comp_apply, List.drop_drop, Nat.succ_mul, Nat.add_comm (k * size),
    Nat.succ_eq_add_one, Nat.add_assoc, Nat.add_comm 1 k]

/-- **The loop over the pictures.** -/
theorem frameLoop_eq {E : VideoEncoder ε} {frames : ℕ → YuvFrame} (hw : 2 ∣ w) (hh : 2 ∣ h)
    (hpos : 0 < frameSize w h) (hframes : ∀ i, (frames i).Fits w h) (n i : ℕ) (s : Encoding ε)
    (input : List UInt8) :
    frameLoop E frames w h n i s input = pure (loopEnd (input.length / frameSize w h < n)
      (encodedAll E s (pictures (frameSize w h) (min n (input.length / frameSize w h)) i input))) := by
  induction n generalizing i s input with
  | zero =>
    rw [frameLoop, Nat.zero_min, pictures, List.range_zero, List.map_nil, encodedAll,
      List.foldlM_nil]
    rfl
  | succ n ih =>
    rw [frameLoop, fread]
    dsimp only
    by_cases hlen : (input.take (frameSize w h)).length = frameSize w h
    · rw [if_neg (not_not.mpr hlen)]
      obtain ⟨g, hg, hshown, -⟩ := fillFrame_eq hw hh (hframes i) hlen
      have hle : frameSize w h ≤ input.length := by
        rw [List.length_take] at hlen
        omega
      have hdiv : input.length / frameSize w h =
          (input.drop (frameSize w h)).length / frameSize w h + 1 := by
        rw [List.length_drop]
        exact Nat.div_eq_sub_div hpos hle
      rw [hg, pure_bind, hshown, encode_eq, hdiv, Nat.add_min_add_right, pictures_succ, encodedAll,
        List.foldlM_cons]
      cases encoded E s (some (input.take (frameSize w h), i)) with
      | none => rfl
      | some s' =>
        dsimp only
        rw [ih]
        simp only [Nat.add_lt_add_iff_right]
        rfl
    · rw [if_pos hlen]
      have hlt : input.length < frameSize w h := by
        rw [List.length_take] at hlen
        omega
      rw [Nat.div_eq_of_lt hlt, Nat.min_zero, pictures, List.range_zero, List.map_nil, encodedAll,
        List.foldlM_nil]
      rfl

/-- **The output of the program**: that of an encoder that is sent the pictures of the file, with
their numbers as times, and is flushed. If the file has too few of them, the packets up to then have
been written, and the encoder is not flushed. -/
def output (E : VideoEncoder ε) (e : ε) (mpeg : Bool) (input : List UInt8) : Ended :=
  match encodedAll E { enc := e, outfile := [] } (pictures (frameSize width height)
    (min rounds (input.length / frameSize width height)) 0 input) with
  | none => .exited
  | some s =>
    if input.length / frameSize width height < rounds then .returned (-1) s.outfile
    else
      match encoded E s none with
      | none => .exited
      | some s => .returned 0 (if mpeg then s.outfile ++ endcode else s.outfile)

/-- A plane without gaps between its rows. -/
def tightPlane (w h : ℕ) : Plane where
  data := List.replicate (h * w) 0
  linesize := w

theorem tightPlane_fits (w h : ℕ) : (tightPlane w h).Fits w h where
  le_linesize := le_rfl
  le_length := by
    intro i hi
    show i * w + w ≤ (List.replicate (h * w) (0 : UInt8)).length
    rw [List.length_replicate, ← Nat.succ_mul]
    exact Nat.mul_le_mul_right w hi

/-- A frame without gaps between its rows. -/
def tightFrame (w h : ℕ) : YuvFrame where
  y := tightPlane w h
  u := tightPlane (w / 2) (h / 2)
  v := tightPlane (w / 2) (h / 2)

/-- An encoder whose packets are the pictures. -/
def plainEncoder : VideoEncoder Unit where
  send := fun _ pic => some ((), pic.toList.map Prod.fst)

end EncodeVideo

end Candcpp
