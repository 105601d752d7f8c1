import Candcpp.Cpp.CString
import Candcpp.Text.Lines

/-!
# Lines from a client

`get_line` of `tinyhttpd` takes bytes from a socket, one at a time, up to the end of a line or of
the buffer. A line ends with a carriage return, a linefeed, or the two of them, and is stored with
a linefeed in any case.

A call takes what `Candcpp.Lines.read` takes, leaves the rest of the buffer as it was, and never
writes outside it (`Candcpp.Httpd.getLine_eq`). **Call after call, the lines are the stream of the
client cut into pieces** (`Candcpp.Httpd.getLines_cut`): nothing is lost, and how the client ends
its lines makes no difference.

The loops that read and discard headers stop after the first piece that is a linefeed and no more.
That is the end of the headers, unless one of them has a length that is a multiple of 1023
(`Candcpp.Httpd.discardHeaders_returns`).

What a socket sends is what is handed to `send`; `recv` finds the bytes of the client in order,
and nothing more when there are none left.
-/

namespace Candcpp

namespace Httpd

open Cpp

/-! ### The code -/

/-- A client: the bytes it will still send, the bytes it has been sent, and whether its socket has
been closed. -/
structure Client where
  input : List UInt8
  sent : List UInt8
  closed : Bool
  deriving DecidableEq, Repr

/-- `'\r'`. -/
def cr : UInt8 := 13

/-- `'\n'`. -/
def lf : UInt8 := 10

namespace Client

/-- `recv(sock, &c, 1, 0)`: the next byte, if there is one. -/
def recv (s : Client) : Option (UInt8 × Client) :=
  match s.input with
  | [] => none
  | c :: input => some (c, { s with input := input })

/-- `recv(sock, &c, 1, MSG_PEEK)`: the next byte, which is not taken. -/
def peek (s : Client) : Option UInt8 := s.input.head?

/-- The client without its next byte. -/
def advance (s : Client) : Client := { s with input := s.input.tail }

/-- `send(client, bytes, n, 0)`. -/
def send (s : Client) (bytes : List UInt8) : Client := { s with sent := s.sent ++ bytes }

/-- `close(client)`. -/
def close (s : Client) : Client := { s with closed := true }

end Client

/-- What a call of `get_line` leaves: the number of bytes that are stored, the buffer, and the
client. -/
structure Got where
  numchars : ℤ
  buf : List UInt8
  client : Client

/-- The loop of `get_line`. -/
def getLineLoop (size i : ℤ) (c : UInt8) (buf : List UInt8) (s : Client) : Result Got :=
  show Exec Got from do
    let +zeta getLineLoop : type_of% getLineLoop := by apply getLineLoop
    if i < size - 1 ∧ c ≠ lf then
      match s.recv with
      | some (c, s) =>
        -- of a carriage return and a linefeed, the linefeed is taken as well
        let s := if c = cr ∧ s.peek = some lf then s.advance else s
        let c := if c = cr then lf else c
        let buf ← setNth buf i c
        getLineLoop size (i + 1) c buf s
      | none => getLineLoop size i lf buf s
    else
      pure ⟨i, buf, s⟩
partial_fixpoint

/-- `get_line`. -/
def getLine (s : Client) (buf : List UInt8) (size : ℤ) : Exec Got := do
  let got ← (getLineLoop size 0 0 buf s : Exec Got)
  let buf ← setNth got.buf got.numchars 0
  pure { got with buf := buf }

/-- `sizeof(buf)`, of every buffer for lines. -/
def bufSize : ℕ := 1024

/-- `while ((numchars > 0) && strcmp("\n", buf)) numchars = get_line(client, buf, sizeof(buf));` -/
def discardHeaders (got : Got) : Result Got :=
  show Exec Got from do
    let +zeta discardHeaders : type_of% discardHeaders := by apply discardHeaders
    if 0 < got.numchars then
      if ← strcmp got.buf [lf] then
        pure got
      else
        let got ← getLine got.client got.buf bufSize
        discardHeaders got
    else
      pure got
partial_fixpoint

/-- Calls of `get_line`, one after the other: the strings that are stored, the buffer, and the
client. -/
def getLines (size : ℤ) : ℕ → List UInt8 → Client →
    Exec (List (List UInt8) × List UInt8 × Client)
  | 0, buf, s => pure ([], buf, s)
  | k + 1, buf, s => do
    let got ← getLine s buf size
    let (lines, buf, s) ← getLines size k got.buf got.client
    pure (got.buf.take got.numchars.toNat :: lines, buf, s)

/-! ### One line -/

namespace Client

variable (n : ℕ) (s : Client)

/-- The next piece of the client's stream. -/
def line : List UInt8 := (Lines.read cr lf n s.input).1

/-- The client after its next piece. -/
def after : Client := { s with input := (Lines.read cr lf n s.input).2 }

/-- The buffer after the next piece has been stored in it. -/
def stored (buf : List UInt8) : List UInt8 := overwrite buf (s.line n)

/-- The client's stream with its line ends made equal. -/
def stream : List UInt8 := Lines.unify cr lf s.input

@[simp] theorem after_sent : (s.after n).sent = s.sent := rfl

@[simp] theorem after_closed : (s.after n).closed = s.closed := rfl

theorem line_eq : s.line n = (Lines.next lf n s.stream).1 :=
  (Lines.read_eq (by decide) n s.input).1

theorem after_stream : (s.after n).stream = (Lines.next lf n s.stream).2 :=
  (Lines.read_eq (by decide) n s.input).2

theorem length_line_le : (s.line n).length ≤ n :=
  (congrArg List.length (s.line_eq n)).trans_le (Lines.length_next_le lf n s.stream)

variable {n} in
theorem length_stored {buf : List UInt8} (hbuf : n < buf.length) :
    (s.stored n buf).length = buf.length :=
  length_overwrite ((s.length_line_le n).trans_lt hbuf)

theorem isStr_stored (buf : List UInt8) : IsStr (s.stored n buf) 0 (cut (s.line n)) :=
  isStr_overwrite buf _

end Client

variable {s : Client} {buf : List UInt8} {size i : ℤ} {c : UInt8} {n k : ℕ}

theorem getLineLoop_exit (h : ¬ (i < size - 1 ∧ c ≠ lf)) :
    getLineLoop size i c buf s = (pure ⟨i, buf, s⟩ : Exec Got) := by
  rw [getLineLoop]
  exact if_neg h

theorem getLineLoop_none (h : i < size - 1 ∧ c ≠ lf) (hs : s.input = []) :
    getLineLoop size i c buf s = (pure ⟨i, buf, s⟩ : Exec Got) := by
  have hrecv : s.recv = none := by rw [Client.recv, hs]
  rw [getLineLoop]
  simp only [hrecv, if_pos h]
  exact getLineLoop_exit fun h => h.2 rfl

theorem getLineLoop_some {p t : List UInt8} {a d : UInt8} {input : List UInt8}
    (h : p.length < size - 1 ∧ c ≠ lf) (hs : s.input = a :: input) :
    getLineLoop size p.length c (p ++ d :: t) s =
      (getLineLoop size (p ++ [if a = cr then lf else a]).length (if a = cr then lf else a)
        (p ++ [if a = cr then lf else a] ++ t)
        { s with input := if a = cr then Lines.skip lf input else input } : Exec Got) := by
  have hrecv : s.recv = some (a, { s with input := input }) := by rw [Client.recv, hs]
  have hskip : (if a = cr ∧ (Client.peek { s with input := input }) = some lf then
      (Client.advance { s with input := input }) else { s with input := input }) =
      { s with input := if a = cr then Lines.skip lf input else input } := by
    by_cases ha : a = cr
    · rw [if_pos ha]
      cases input with
      | nil => simp [Client.peek, Lines.skip]
      | cons b input =>
        by_cases hb : b = lf <;> simp [Client.peek, Client.advance, Lines.skip, ha, hb]
    · rw [if_neg ha, if_neg fun h => ha h.1]
  have hset : ∀ x, setNth (p ++ d :: t) p.length x = pure (p ++ [x] ++ t) := fun x => by
    rw [setNth_eq (by simp)]
    simp
  rw [getLineLoop]
  simp only [hrecv, if_pos h, hskip, hset, pure_bind, List.length_append, List.length_singleton,
    Nat.cast_add, Nat.cast_one]

/-- **The loop**, where `p` has been stored and there is room for `n` bytes more. -/
theorem getLineLoop_eq {p t : List UInt8} (hc : c ≠ lf) (hsize : size = p.length + n + 1)
    (hroom : n ≤ t.length) :
    getLineLoop size p.length c (p ++ t) s =
      (pure ⟨(p ++ s.line n).length, p ++ s.line n ++ t.drop (s.line n).length, s.after n⟩ :
        Exec Got) := by
  induction n generalizing p t c s with
  | zero =>
    rw [getLineLoop_exit (by omega)]
    simp [Client.line, Client.after, Lines.read]
  | succ n ih =>
    have hgo : (p.length : ℤ) < size - 1 ∧ c ≠ lf := ⟨by omega, hc⟩
    obtain ⟨d, t, rfl⟩ := List.exists_cons_of_length_pos (Nat.zero_lt_of_lt hroom)
    rcases hs : s.input with _ | ⟨a, input⟩
    · rw [getLineLoop_none hgo hs]
      have hafter : s.after (n + 1) = s := by
        rw [Client.after, hs, Lines.read, ← hs]
      simp [hafter, Client.line, Lines.read, hs]
    · rw [getLineLoop_some hgo hs]
      by_cases hend : a = cr ∨ a = lf
      · -- the line is over
        have hlf : (if a = cr then lf else a) = lf := by
          rcases hend with rfl | rfl <;> decide
        rw [hlf, getLineLoop_exit fun h => h.2 rfl]
        rcases hend with rfl | rfl
        · simp [Client.line, Client.after, Lines.read, hs]
        · simp [Client.line, Client.after, Lines.read, hs, show lf ≠ cr by decide]
      · obtain ⟨hcr, hlf⟩ := not_or.mp hend
        rw [if_neg hcr, if_neg hcr, ih hlf (by simp; omega) (by simpa using hroom)]
        simp [Client.line, Client.after, Lines.read, hs, hcr, hlf]

/-- **A call of `get_line`** stores the next line and a zero byte behind it. -/
theorem getLine_eq (hbuf : n < buf.length) : getLine s buf ((n + 1 : ℕ) : ℤ) =
    pure ⟨(s.line n).length, s.stored n buf, s.after n⟩ := by
  have hloop := getLineLoop_eq (s := s) (p := []) (t := buf) (show (0 : UInt8) ≠ lf by decide)
    (show (((n + 1 : ℕ) : ℤ)) = _ by simp) hbuf.le
  simp only [List.nil_append, List.length_nil, Nat.cast_zero] at hloop
  have hlt : (s.line n).length < buf.length := (s.length_line_le n).trans_lt hbuf
  rw [getLine, hloop, pure_bind, setNth_drop hlt, pure_bind, Client.stored]

/-- **A line that fits** is stored with a linefeed, and the client goes on behind it. -/
theorem getLine_line (line : List UInt8) {eol rest : List UInt8} (hinput : s.input = line ++ eol ++ rest)
    (hcr : cr ∉ line) (hlf : lf ∉ line) (heol : eol = [lf] ∨ eol = [cr, lf])
    (hlen : line.length < 1023) (hbuf : buf.length = bufSize) :
    getLine s buf bufSize = pure ⟨(line ++ [lf]).length, overwrite buf (line ++ [lf]),
      { s with input := rest }⟩ := by
  have hread : Lines.read cr lf 1023 (line ++ eol ++ rest) = (line ++ [lf], rest) :=
    Lines.read_line hcr hlf (by decide) heol hlen
  have hget : getLine s buf ((1023 + 1 : ℕ) : ℤ) = _ := getLine_eq (by rw [hbuf]; decide)
  rw [Client.stored, Client.after, Client.line, hinput, hread] at hget
  exact hget

/-! ### Line after line -/

theorem getLines_eq (hbuf : n < buf.length) : ∃ buf', buf'.length = buf.length ∧
    getLines ((n + 1 : ℕ) : ℤ) k buf s = pure ((Lines.reads cr lf n k s.input).1, buf',
      { s with input := (Lines.reads cr lf n k s.input).2 }) := by
  induction k generalizing buf s with
  | zero => exact ⟨buf, rfl, rfl⟩
  | succ k ih =>
    have hstored := s.length_stored hbuf
    obtain ⟨buf', hlen, hlines⟩ := ih (s := s.after n) (hbuf.trans_eq hstored.symm)
    refine ⟨buf', hlen.trans hstored, ?_⟩
    rw [getLines, getLine_eq hbuf, pure_bind]
    dsimp only
    rw [hlines, pure_bind, Int.toNat_natCast, Client.stored, overwrite, List.take_left]
    rfl

/-- **The lines that are got one after the other** are the client's stream, its line ends made
equal, cut into pieces that fit into the buffer; there is one way to cut it so. -/
theorem getLines_cut (n k : ℕ) (buf : List UInt8) (s : Client) (hbuf : n < buf.length) :
    ∃ lines buf' s', getLines ((n + 1 : ℕ) : ℤ) k buf s = pure (lines, buf', s') ∧
      lines.length = k ∧ Lines.Cut lf n s.stream lines s'.stream ∧
      ∀ lines' rest, lines'.length = k → Lines.Cut lf n s.stream lines' rest → lines' = lines := by
  obtain ⟨buf', -, hlines⟩ := getLines_eq (s := s) (k := k) hbuf
  have hlen : (Lines.reads cr lf n k s.input).1.length = k := Lines.length_reads n k s.input
  have hcut := Lines.cut_reads (show lf ≠ cr by decide) n k s.input
  exact ⟨_, buf', _, hlines, hlen, hcut, fun lines' rest hlen' hcut' =>
    (hcut'.unique hcut (hlen'.trans hlen.symm)).1⟩

/-- Two calls on a buffer of four bytes: the second line is cut. -/
theorem getLines_cut_four : ∃ lines buf' s',
    getLines 4 2 [0, 0, 0, 0] ⟨[65, 13, 10, 66, 67, 68, 69], [], false⟩ =
      pure (lines, buf', s') ∧ lines.length = 2 ∧
      Lines.Cut lf 3 [65, 10, 66, 67, 68, 69] lines s'.stream ∧
      ∀ lines' rest, lines'.length = 2 → Lines.Cut lf 3 [65, 10, 66, 67, 68, 69] lines' rest →
        lines' = lines :=
  getLines_cut 3 2 [0, 0, 0, 0] ⟨[65, 13, 10, 66, 67, 68, 69], [], false⟩ (by decide)

/-! ### Headers -/

/-- The string of a line is a linefeed only if the line is. -/
theorem cut_line_eq_lf : cut (s.line n) = [lf] ↔ s.line n = [lf] := by
  constructor
  · intro h
    have hpre : [lf] <+: s.line n := h ▸ List.takeWhile_prefix _
    rw [s.line_eq n] at hpre ⊢
    rcases Lines.next_shape lf n s.stream with ⟨p, hp, hmem, -⟩ | ⟨hmem, -⟩
    · rw [hp] at hpre ⊢
      cases p with
      | nil => rfl
      | cons c p =>
        rw [List.cons_append, List.cons_prefix_cons] at hpre
        exact absurd (hpre.1 ▸ List.mem_cons_self) hmem
    · exact absurd (hpre.subset List.mem_cons_self) hmem
  · intro h
    rw [h]
    rfl

/-- Where the loop is left, and where it goes on. -/
theorem discardHeaders_eq {numchars : ℤ} {t : List UInt8} (hpos : 0 < numchars)
    (hbuf : IsStr buf 0 t) : discardHeaders ⟨numchars, buf, s⟩ =
      if t = [lf] then pure ⟨numchars, buf, s⟩
      else getLine s buf bufSize >>= fun got => (discardHeaders got : Exec Got) := by
  rw [discardHeaders, if_pos hpos, strcmp_eq hbuf (by decide)]
  by_cases ht : t = [lf]
  · simp [ht]
  · simp [ht]

/-- **The headers of a client are gone**: its stream is left where the first line has been found
whose length is a multiple of 1023, and nothing else has changed. -/
structure HeadersGone (s s' : Client) : Prop where
  client : s' = { s with input := s'.input }
  stream : s'.stream = Lines.afterBlank lf 1023 0 s.stream

/-- **The loop from a line on.** -/
theorem discardHeaders_line (s : Client) (buf : List UInt8) (hlen : buf.length = bufSize) :
    ∃ got, discardHeaders ⟨(s.line 1023).length, s.stored 1023 buf, s.after 1023⟩ =
        (pure got : Exec Got) ∧ got.buf.length = bufSize ∧ HeadersGone s got.client := by
  induction hn : s.stream.length using Nat.strong_induction_on generalizing s buf with
  | h m ih =>
    subst hn
    have hbuf : 1023 < buf.length := by rw [hlen]; decide
    have hstored := (s.length_stored hbuf).trans hlen
    have hstream := s.after_stream 1023
    by_cases hnil : s.stream = []
    · -- nothing is left
      have hline : s.line 1023 = [] := by
        rw [s.line_eq, hnil]
        rfl
      have hexit : discardHeaders ⟨(s.line 1023).length, s.stored 1023 buf, s.after 1023⟩ =
          (pure ⟨(s.line 1023).length, s.stored 1023 buf, s.after 1023⟩ : Exec Got) := by
        rw [discardHeaders, if_neg (by simp [hline])]
      refine ⟨_, hexit, hstored, rfl, ?_⟩
      rw [hstream, hnil]
      rfl
    · have hpos : 0 < (s.line 1023).length := by
        rw [s.line_eq]
        exact List.length_pos_iff.mpr fun h => hnil ((Lines.next_eq_nil (by decide)).mp h)
      rw [discardHeaders_eq (by exact_mod_cast hpos) (s.isStr_stored 1023 buf)]
      by_cases hblank : s.line 1023 = [lf]
      · rw [if_pos (cut_line_eq_lf.mpr hblank)]
        refine ⟨_, rfl, hstored, rfl, hstream.trans ?_⟩
        exact (Lines.afterBlank_next_lf ((s.line_eq 1023).symm.trans hblank)).symm
      · have hlt : (s.after 1023).stream.length < s.stream.length :=
          (congrArg List.length hstream).trans_lt (Lines.length_next_snd_lt (by decide) hnil)
        obtain ⟨got, hgot, hgotlen, hgone⟩ :=
          ih _ hlt (s.after 1023) (s.stored 1023 buf) hstored rfl
        rw [if_neg (mt cut_line_eq_lf.mp hblank),
          show (bufSize : ℤ) = ((1023 + 1 : ℕ) : ℤ) from rfl,
          getLine_eq (by rw [hstored]; decide), pure_bind]
        refine ⟨got, hgot, hgotlen, hgone.client, hgone.stream.trans ?_⟩
        rw [hstream]
        exact (Lines.afterBlank_next fun h => hblank ((s.line_eq 1023).trans h)).symm

/-- **Headers are discarded** up to the first line whose length is a multiple of 1023, or to the
end of the stream. -/
theorem discardHeaders_returns (numchars : ℤ) {t : List UInt8} (s : Client) (hpos : 0 < numchars)
    (hlen : buf.length = bufSize) (hbuf : IsStr buf 0 t) (ht : t ≠ [lf]) :
    ∃ got, discardHeaders ⟨numchars, buf, s⟩ = (pure got : Exec Got) ∧ got.buf.length = bufSize ∧
      HeadersGone s got.client := by
  rw [discardHeaders_eq hpos hbuf, if_neg ht, show (bufSize : ℤ) = ((1023 + 1 : ℕ) : ℤ) from rfl,
    getLine_eq (by rw [hlen]; decide), pure_bind]
  exact discardHeaders_line s buf hlen

end Httpd

end Candcpp
