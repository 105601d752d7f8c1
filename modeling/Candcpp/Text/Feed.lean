import Candcpp.Cpp.Loop

/-!
# Parsers that are fed piece by piece

A parser that is given a part of a stream, uses some of it, and may have completed a packet then;
what it has not used it is given again. A program that feeds it from a buffer has to see to it that
no byte is left out or given twice, whatever the parser uses.

`Candcpp.Feed` says what that comes to without a buffer: in front of the parser is the whole stream,
and it looks at a part of it that is not empty, and that has some least length or is all there is.
A program that is shown to feed its parser so is right about its buffer.

The other half is the memory: `Candcpp.Cpp.bytesAt` and `Candcpp.Cpp.storeAt` are a read and a write
of several bytes in an array, and a `Candcpp.Feeder` is a parser in front of such an array, with a
pointer to the bytes that it has not used yet.
-/

namespace Candcpp

/-! ### Bytes in an array -/

namespace Cpp

/-- `n` bytes of an array, from the place `p` on. -/
def bytesAt (a : List UInt8) (p n : ℕ) : Exec (List UInt8) :=
  if p + n ≤ a.length then pure ((a.drop p).take n) else throw .outOfRange

/-- An array after bytes have been stored from the place `p` on. -/
def storeAt (a : List UInt8) (p : ℕ) (s : List UInt8) : Exec (List UInt8) :=
  if p + s.length ≤ a.length then pure (a.take p ++ (s ++ a.drop (p + s.length)))
  else throw .outOfRange

/-- `fread(…, 1, n, f)`: the bytes that are read, and those that are not. -/
def fread (n : ℕ) (f : List UInt8) : List UInt8 × List UInt8 := (f.take n, f.drop n)

variable {a s t : List UInt8} {p n : ℕ}

theorem bytesAt_eq (h : p + n ≤ a.length) : bytesAt a p n = pure ((a.drop p).take n) := if_pos h

theorem storeAt_eq (h : p + s.length ≤ a.length) :
    storeAt a p s = pure (a.take p ++ (s ++ a.drop (p + s.length))) := if_pos h

end Cpp

namespace Cpp

/-- **A loop that writes** a piece for each element of a list. -/
theorem foldlM_write {α : Type} {f : List UInt8 → α → Exec (List UInt8)} {g : α → List UInt8}
    {l : List α} (h : ∀ x ∈ l, ∀ out, f out x = pure (out ++ g x)) (out : List UInt8) :
    l.foldlM f out = pure (out ++ l.flatMap g) := by
  induction l generalizing out with
  | nil => exact congrArg pure (List.append_nil out).symm
  | cons x l ih =>
    rw [List.foldlM_cons, h x List.mem_cons_self, pure_bind,
      ih (fun y hy => h y (List.mem_cons_of_mem x hy)), List.append_assoc, List.flatMap_cons]

/-- Pieces that are all of one length. -/
theorem length_flatMap_of_length {α β : Type} {g : α → List β} {k : ℕ} {l : List α}
    (hk : ∀ y ∈ l, (g y).length = k) : (l.flatMap g).length = l.length * k := by
  have hmap : (l.map fun y => (g y).length) = List.replicate l.length k :=
    List.map_eq_replicate_iff.mpr hk
  rw [List.length_flatMap, hmap, List.sum_replicate_nat]

/-- **One of the pieces** that are all of one length. -/
theorem take_drop_flatMap {α β : Type} {g : α → List β} {k : ℕ} {l : List α} {x : α} {i : ℕ}
    (hk : ∀ y ∈ l, (g y).length = k) (hx : l[i]? = some x) :
    ((l.flatMap g).drop (i * k)).take k = g x := by
  induction l generalizing i with
  | nil => cases hx
  | cons y l ih =>
    obtain ⟨hy, hl⟩ := List.forall_mem_cons.mp hk
    rw [List.flatMap_cons]
    cases i with
    | zero =>
      obtain rfl : y = x := Option.some.inj hx
      rw [Nat.zero_mul, List.drop_zero, List.take_left' hy]
    | succ i =>
      have hdrop : (i + 1) * k = (g y).length + i * k := by
        rw [hy, Nat.succ_mul, Nat.add_comm]
      rw [hdrop, List.drop_append, List.drop_eq_nil_of_le (Nat.le_add_right _ _),
        Nat.add_sub_cancel_left, List.nil_append]
      exact ih hl hx

end Cpp

/-! ### Feeding a parser -/

/-- **A parser**: a call with some bytes fails, or leads to a new state, and says how many of the
bytes it has used, and which packet has been completed; the empty one stands for none. It does not
stay at a place for ever: `work` bounds the calls that use no byte. -/
structure Parser (π : Type) where
  parse : π → List UInt8 → Option (π × ℕ × List UInt8)
  used_le : ∀ p w q n pkt, parse p w = some (q, n, pkt) → n ≤ w.length
  work : π → ℕ
  work_lt : ∀ p w q pkt, parse p w = some (q, 0, pkt) → w ≠ [] ∨ pkt ≠ [] → work q < work p

variable {π ω : Type}

open Cpp

/-- What becomes of a packet, if there is one: `emit` may give up. -/
def emitted (emit : ω → List UInt8 → Option ω) (x : ω) (pkt : List UInt8) : Option ω :=
  if pkt = [] then some x else emit x pkt

/-- **The parser is fed** with the bytes of a stream: each call is given a part of what is left of
it, `least` bytes or all that there is. At the end the stream has been used up, or a call has
failed, or a packet was bad. -/
inductive Feed (P : Parser π) (emit : ω → List UInt8 → Option ω) (least : ℕ) :
    π → ω → List UInt8 → Option (π × ω) → Prop where
  /-- The stream has been used up. -/
  | done {p : π} {x : ω} : Feed P emit least p x [] (some (p, x))
  /-- The parser fails. -/
  | fail {p : π} {x : ω} {bytes w : List UInt8} (hw : w ≠ []) (hpre : w <+: bytes)
      (hleast : least ≤ w.length ∨ w = bytes) (hparse : P.parse p w = none) :
      Feed P emit least p x bytes none
  /-- The packet is bad. -/
  | stop {p q : π} {x : ω} {bytes w pkt : List UInt8} {n : ℕ} (hw : w ≠ []) (hpre : w <+: bytes)
      (hleast : least ≤ w.length ∨ w = bytes) (hparse : P.parse p w = some (q, n, pkt))
      (hemit : emitted emit x pkt = none) : Feed P emit least p x bytes none
  /-- The parser uses some bytes. -/
  | feed {p q : π} {x y : ω} {bytes w pkt : List UInt8} {n : ℕ} {r : Option (π × ω)} (hw : w ≠ [])
      (hpre : w <+: bytes) (hleast : least ≤ w.length ∨ w = bytes)
      (hparse : P.parse p w = some (q, n, pkt)) (hemit : emitted emit x pkt = some y)
      (hrest : Feed P emit least q y (bytes.drop n) r) : Feed P emit least p x bytes r

/-- **The end of the stream**: the parser is given no bytes as often as it has a packet left. -/
inductive Flush (P : Parser π) (emit : ω → List UInt8 → Option ω) : π → ω → Option (π × ω) → Prop
    where
  /-- The parser fails. -/
  | fail {p : π} {x : ω} (hparse : P.parse p [] = none) : Flush P emit p x none
  /-- The packet is bad. -/
  | stop {p q : π} {x : ω} {pkt : List UInt8} {n : ℕ} (hparse : P.parse p [] = some (q, n, pkt))
      (hemit : emitted emit x pkt = none) : Flush P emit p x none
  /-- There is no packet left. -/
  | last {p q : π} {x : ω} {n : ℕ} (hparse : P.parse p [] = some (q, n, [])) :
      Flush P emit p x (some (q, x))
  /-- There is another packet. -/
  | more {p q : π} {x y : ω} {pkt : List UInt8} {n : ℕ} {r : Option (π × ω)} (hpkt : pkt ≠ [])
      (hparse : P.parse p [] = some (q, n, pkt)) (hemit : emitted emit x pkt = some y)
      (hrest : Flush P emit q y r) : Flush P emit p x r

variable {P : Parser π} {e : ω → List UInt8 → Option ω} {p q : π} {x y : ω} {a b : List UInt8}
  {r : Option (π × ω)}

/-- **A stream in two parts**, where each call is given one byte at least: the parser is fed with the
one, and with the other one if it gets that far. -/
theorem Feed.append {rest : Option (π × ω)} (h : Feed P e 1 p x a r)
    (hrest : ∀ q y, r = some (q, y) → Feed P e 1 q y b rest) (hnone : r = none → rest = none) :
    Feed P e 1 p x (a ++ b) rest := by
  have hone : ∀ {w : List UInt8}, w ≠ [] → 1 ≤ w.length := List.length_pos_of_ne_nil
  induction h with
  | done => exact hrest _ _ rfl
  | fail hw hpre _ hparse =>
    rw [hnone rfl]
    exact .fail hw (hpre.trans (List.prefix_append _ _)) (.inl (hone hw)) hparse
  | stop hw hpre _ hparse hemit =>
    rw [hnone rfl]
    exact .stop hw (hpre.trans (List.prefix_append _ _)) (.inl (hone hw)) hparse hemit
  | feed hw hpre _ hparse hemit _ ih =>
    refine .feed hw (hpre.trans (List.prefix_append _ _)) (.inl (hone hw)) hparse hemit ?_
    rw [List.drop_append_of_le_length ((P.used_le _ _ _ _ _ hparse).trans hpre.length_le)]
    exact ih hrest hnone

/-! ### A parser in front of an array -/

/-- A parser, and an array with the bytes for it. -/
structure Feeder (π ω : Type) where
  inbuf : List UInt8
  /-- Where the bytes begin. -/
  data : ℕ
  dataSize : ℕ
  parser : π
  out : ω

namespace Feeder

/-- The bytes for the parser. -/
def window (s : Feeder π ω) : List UInt8 := (s.inbuf.drop s.data).take s.dataSize

/-- `if (pkt->size) emit(pkt)` -/
def emitPacket (emit : ω → List UInt8 → Exec (Option ω)) (x : ω) (pkt : List UInt8) :
    Exec (Option ω) :=
  if pkt = [] then pure (some x) else emit x pkt

/-- A call of the parser with all bytes that are there, and what is done with its packet; it says
which one it was. There is none where the parser fails, or the packet is bad. -/
def call (P : Parser π) (emit : ω → List UInt8 → Exec (Option ω)) (s : Feeder π ω) :
    Exec (Option (List UInt8 × Feeder π ω)) := do
  let w ← bytesAt s.inbuf s.data s.dataSize
  match P.parse s.parser w with
  | none => pure none
  | some (p, ret, pkt) =>
    match ← emitPacket emit s.out pkt with
    | none => pure none
    | some out =>
      pure (some (pkt,
        { s with parser := p, out := out, data := s.data + ret, dataSize := s.dataSize - ret }))

variable {emit : ω → List UInt8 → Exec (Option ω)} {s : Feeder π ω}

theorem length_window (h : s.data + s.dataSize ≤ s.inbuf.length) :
    s.window.length = s.dataSize := by
  rw [window, List.length_take, List.length_drop]
  omega

/-- **What a call comes to.** -/
theorem call_cases (h : s.data + s.dataSize ≤ s.inbuf.length)
    (hemit : ∀ x pkt, emit x pkt = pure (e x pkt)) :
    (P.parse s.parser s.window = none ∧ s.call P emit = pure none) ∨
    (∃ q n pkt, P.parse s.parser s.window = some (q, n, pkt) ∧ emitted e s.out pkt = none ∧
      s.call P emit = pure none) ∨
    ∃ q n pkt y t, P.parse s.parser s.window = some (q, n, pkt) ∧ emitted e s.out pkt = some y ∧
      s.call P emit = pure (some (pkt, t)) ∧ n ≤ s.dataSize ∧ t = { s with
        parser := q, out := y, data := s.data + n, dataSize := s.dataSize - n } ∧
      t.window = s.window.drop n := by
  have hread : bytesAt s.inbuf s.data s.dataSize = pure s.window := bytesAt_eq h
  cases hparse : P.parse s.parser s.window with
  | none =>
    refine .inl ⟨rfl, ?_⟩
    rw [call, hread, pure_bind, hparse]
  | some r =>
    obtain ⟨q, n, pkt⟩ := r
    have hn : n ≤ s.dataSize := length_window h ▸ P.used_le _ _ _ _ _ hparse
    have hemitted : emitPacket emit s.out pkt = pure (emitted e s.out pkt) := by
      rw [emitPacket, emitted]
      split_ifs
      · rfl
      · exact hemit _ _
    refine .inr ?_
    cases he : emitted e s.out pkt with
    | none =>
      refine .inl ⟨q, n, pkt, rfl, he, ?_⟩
      rw [call, hread, pure_bind, hparse]
      dsimp only
      rw [hemitted, he, pure_bind]
    | some y =>
      refine .inr ⟨q, n, pkt, y, _, rfl, he, ?_, hn, rfl, ?_⟩
      · rw [call, hread, pure_bind, hparse]
        dsimp only
        rw [hemitted, he, pure_bind]
      · show (s.inbuf.drop (s.data + n)).take (s.dataSize - n) = _
        rw [window, List.drop_take, List.drop_drop]

end Feeder

end Candcpp
