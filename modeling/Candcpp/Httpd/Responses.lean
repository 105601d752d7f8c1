import Candcpp.Httpd.GetLine

/-!
# What a client is sent

The answers of `tinyhttpd` whose text is fixed, and the files it serves.

A file is sent by `cat` in pieces, of which `fgets` reads at most 1023 bytes, up to the next
linefeed. The loop looks whether the end of the file has been met **before** it sends what has been
read. So the last piece is sent only if it could be read without meeting the end: if it ends with a
linefeed, or is as long as a piece can be. What is sent of a file without zero bytes is the file
without its last, unfinished line, or without what that line has beyond a multiple of 1023 bytes
(`Candcpp.Httpd.cat_sent`).
-/

namespace Candcpp

namespace Httpd

open Cpp

/-! ### The code -/

/-- Texts that are printed into a buffer, one after the other, and sent as strings. -/
def Client.tell (s : Client) (texts : List String) : Client :=
  texts.foldl (fun s text => s.send (ascii text)) s

/-- `SERVER_STRING`. -/
def serverString : String := "Server: jdbhttpd/0.1.0\r\n"

/-- `not_found`. -/
def notFound (s : Client) : Client :=
  s.tell ["HTTP/1.0 404 NOT FOUND\r\n", serverString, "Content-Type: text/html\r\n", "\r\n",
    "<HTML><TITLE>Not Found</TITLE>\r\n", "<BODY><P>The server could not fulfill\r\n",
    "your request because the resource specified\r\n", "is unavailable or nonexistent.\r\n",
    "</BODY></HTML>\r\n"]

/-- `unimplemented`. -/
def unimplemented (s : Client) : Client :=
  s.tell ["HTTP/1.0 501 Method Not Implemented\r\n", serverString, "Content-Type: text/html\r\n",
    "\r\n", "<HTML><HEAD><TITLE>Method Not Implemented\r\n", "</TITLE></HEAD>\r\n",
    "<BODY><P>HTTP request method not supported.\r\n", "</BODY></HTML>\r\n"]

/-- `cannot_execute`. -/
def cannotExecute (s : Client) : Client :=
  s.tell ["HTTP/1.0 500 Internal Server Error\r\n", "Content-type: text/html\r\n", "\r\n",
    "<P>Error prohibited CGI execution.\r\n"]

/-- The lines in front of a file. -/
def headersTexts : List String :=
  ["HTTP/1.0 200 OK\r\n", serverString, "Content-Type: text/html\r\n", "\r\n"]

/-- `headers`. The name of the file is not used. -/
def headers (s : Client) : Client := s.tell headersTexts

/-- A text that is printed into a buffer, which is then sent as a whole. -/
def sendBuf (s : Client) (buf : List UInt8) (text : String) : Exec (Client × List UInt8) := do
  let buf ← putStr buf 0 (ascii text)
  pure (s.send buf, buf)

/-- `bad_request`, where `buf` is what its buffer holds at first. -/
def badRequest (s : Client) (buf : List UInt8) : Exec Client := do
  let (s, buf) ← sendBuf s buf "HTTP/1.0 400 BAD REQUEST\r\n"
  let (s, buf) ← sendBuf s buf "Content-type: text/html\r\n"
  let (s, buf) ← sendBuf s buf "\r\n"
  let (s, buf) ← sendBuf s buf "<P>Your browser sent a bad request, "
  let (s, _) ← sendBuf s buf "such as a POST without a Content-Length.\r\n"
  pure s

/-- An open file: the bytes not read yet, and whether its end has been met. -/
structure File where
  rest : List UInt8
  eof : Bool

/-- `fgets(buf, sizeof(buf), resource)`. A file at its end leaves the buffer as it is. -/
def fgets (buf : List UInt8) (f : File) : Exec (List UInt8 × File) := do
  let line := (Lines.next lf (bufSize - 1) f.rest).1
  let f := { rest := (Lines.next lf (bufSize - 1) f.rest).2
             eof := f.eof || (line.getLast? != some lf && line.length < bufSize - 1) }
  if line = [] then
    pure (buf, f)
  else do
    let buf ← putStr buf 0 line
    pure (buf, f)

/-- The loop of `cat`. -/
def catLoop (s : Client) (buf : List UInt8) (f : File) : Result Client :=
  show Exec Client from do
    let +zeta catLoop : type_of% catLoop := by apply catLoop
    if f.eof then
      pure s
    else do
      let bytes ← str buf 0
      let (buf, f) ← fgets buf f
      catLoop (s.send bytes) buf f
partial_fixpoint

/-- `cat`, where `buf` is what its buffer holds at first. -/
def cat (s : Client) (buf : List UInt8) (f : File) : Exec Client := do
  let (buf, f) ← fgets buf f
  (catLoop s buf f : Exec Client)

/-- `serve_file`, of the file that `fopen` opens, if it does. Its buffer and the one of `cat` hold
`buf` and `buf'` at first. -/
def serveFile (fopen : Option (List UInt8)) (s : Client) (buf buf' : List UInt8) : Exec Client := do
  let buf ← putStr buf 0 (ascii "A")
  let got ← (discardHeaders ⟨1, buf, s⟩ : Exec Got)
  match fopen with
  -- `fclose` is called on a null pointer
  | none => throw .nullDeref
  | some bytes => cat (headers got.client) buf' { rest := bytes, eof := false }

/-! ### Texts -/

theorem Client.send_send (s : Client) (b b' : List UInt8) :
    (s.send b).send b' = s.send (b ++ b') := by
  simp only [send, List.append_assoc]

theorem Client.tell_eq (s : Client) (texts : List String) :
    s.tell texts = s.send (texts.map ascii).flatten := by
  induction texts generalizing s with
  | nil => simp [tell, send]
  | cons text texts ih =>
    rw [List.map_cons, List.flatten_cons, ← Client.send_send]
    exact ih _

/-! ### Files -/

/-- A piece that has been read without meeting the end of the file. -/
def Complete (line : List UInt8) : Prop :=
  line.getLast? = some lf ∨ line.length = bufSize - 1

instance (line : List UInt8) : Decidable (Complete line) := inferInstanceAs (Decidable (_ ∨ _))

variable {s : Client} {buf content : List UInt8}

theorem fgets_complete (hlen : buf.length = bufSize)
    (h : Complete (Lines.next lf (bufSize - 1) content).1) :
    fgets buf ⟨content, false⟩ = pure (overwrite buf (Lines.next lf (bufSize - 1) content).1,
      ⟨(Lines.next lf (bufSize - 1) content).2, false⟩) := by
  have hle := Lines.length_next_le lf (bufSize - 1) content
  have hpos : 0 < bufSize := by decide
  have hne : (Lines.next lf (bufSize - 1) content).1 ≠ [] := by
    intro hnil
    rw [hnil] at h
    rcases h with h | h <;> cases h
  have heof : ((Lines.next lf (bufSize - 1) content).1.getLast? != some lf &&
      decide ((Lines.next lf (bufSize - 1) content).1.length < bufSize - 1)) = false := by
    rcases h with h | h
    · simp [h]
    · simp [h]
  rw [fgets]
  simp only [heof, Bool.or_false, if_neg hne]
  rw [putStr_front (by omega), pure_bind]

/-- The end of the file is met, and nothing more is sent. -/
theorem cat_incomplete (hlen : buf.length = bufSize)
    (h : ¬ Complete (Lines.next lf (bufSize - 1) content).1) :
    cat s buf ⟨content, false⟩ = pure s := by
  obtain ⟨hlast, hfull⟩ := not_or.mp h
  have hle := Lines.length_next_le lf (bufSize - 1) content
  have hpos : 0 < bufSize := by decide
  have hexit : ∀ buf rest, catLoop s buf ⟨rest, true⟩ = (pure s : Exec Client) := by
    intro buf rest
    rw [catLoop]
    rfl
  have heof : ((Lines.next lf (bufSize - 1) content).1.getLast? != some lf &&
      decide ((Lines.next lf (bufSize - 1) content).1.length < bufSize - 1)) = true := by
    simp only [bne_iff_ne, ne_eq, hlast, not_false_eq_true, decide_eq_true_eq, Bool.and_eq_true,
      true_and]
    omega
  rw [cat, fgets]
  simp only [heof, Bool.or_true]
  split_ifs with hnil
  · exact hexit _ _
  · rw [putStr_front (by omega), pure_bind, pure_bind]
    exact hexit _ _

/-- A piece that is complete is sent up to its first zero byte. -/
theorem cat_complete (hlen : buf.length = bufSize)
    (h : Complete (Lines.next lf (bufSize - 1) content).1) :
    ∃ buf', buf'.length = bufSize ∧ cat s buf ⟨content, false⟩ =
      cat (s.send (cut (Lines.next lf (bufSize - 1) content).1)) buf'
        ⟨(Lines.next lf (bufSize - 1) content).2, false⟩ := by
  have hle := Lines.length_next_le lf (bufSize - 1) content
  have hpos : 0 < bufSize := by decide
  have hline : (Lines.next lf (bufSize - 1) content).1.length < buf.length := by omega
  refine ⟨_, (length_overwrite hline).trans hlen, ?_⟩
  rw [cat, fgets_complete hlen h, pure_bind]
  dsimp only
  rw [catLoop, if_neg Bool.false_ne_true, (isStr_overwrite _ _).str_eq, pure_bind]
  rfl

/-- **What is sent of a file**: the pieces that are complete, each up to its first zero byte. -/
theorem cat_pieces (content : List UInt8) (s : Client) (buf : List UInt8)
    (hlen : buf.length = bufSize) : ∃ lines rest, Lines.Cut lf (bufSize - 1) content lines rest ∧
      (∀ line ∈ lines, Complete line) ∧ lf ∉ rest ∧ rest.length < bufSize - 1 ∧
      cat s buf ⟨content, false⟩ = pure (s.send (lines.map cut).flatten) := by
  induction hn : content.length using Nat.strong_induction_on generalizing content s buf with
  | h m ih =>
    subst hn
    by_cases hc : Complete (Lines.next lf (bufSize - 1) content).1
    · have hlt : (Lines.next lf (bufSize - 1) content).2.length < content.length := by
        refine Lines.length_next_snd_lt (by decide) ?_
        rintro rfl
        rcases hc with h | h <;> cases h
      obtain ⟨buf', hlen', hcat⟩ := cat_complete (s := s) hlen hc
      obtain ⟨lines, rest, hcut, hlines, hmem, hrest, hsent⟩ :=
        ih _ hlt _ (s.send (cut (Lines.next lf (bufSize - 1) content).1)) buf' hlen' rfl
      refine ⟨_, rest, hcut.cons, List.forall_mem_cons.mpr ⟨hc, hlines⟩, hmem, hrest, ?_⟩
      rw [hcat, hsent, Client.send_send, List.map_cons, List.flatten_cons]
    · obtain ⟨hmem, hlt⟩ := Lines.eq_next_of_not hc
      refine ⟨[], content, ⟨rfl, nofun, nofun, fun pre _ _ heq => absurd heq (by simp)⟩, nofun,
        hmem, hlt, ?_⟩
      rw [cat_incomplete hlen hc]
      simp [Client.send]

/-- What is sent of pieces is all of a file exactly if there is nothing else to it, and no zero
byte. -/
theorem flatten_cut_eq {lines : List (List UInt8)} {rest : List UInt8} :
    (lines.map cut).flatten = lines.flatten ++ rest ↔
      0 ∉ lines.flatten ++ rest ∧ rest = [] := by
  constructor
  · intro h
    have hzero : 0 ∉ lines.flatten ++ rest := by
      rw [← h]
      intro hmem
      obtain ⟨l, hl, hz⟩ := List.mem_flatten.mp hmem
      obtain ⟨line, -, rfl⟩ := List.mem_map.mp hl
      exact zero_notMem_cut line hz
    rw [map_cut fun hz => hzero (List.mem_append_left rest hz)] at h
    exact ⟨hzero, List.append_cancel_left (h.symm.trans (List.append_nil _).symm)⟩
  · rintro ⟨hzero, rfl⟩
    rw [List.append_nil] at hzero ⊢
    rw [map_cut hzero]

/-- **What `cat` sends of a file**: the lines and the full pieces into which it is cut, each up to
its first zero byte, but not what its last, unfinished line has beyond a multiple of 1023 bytes. So
it sends the whole file exactly if this is nothing and the file has no zero byte. -/
theorem cat_sent (content : List UInt8) (s : Client) (buf : List UInt8)
    (hlen : buf.length = bufSize) : ∃ lines rest, Lines.Cut lf (bufSize - 1) content lines rest ∧
      rest.length = (Lines.unfinished lf content).length % (bufSize - 1) ∧
      cat s buf ⟨content, false⟩ = pure (s.send (lines.map cut).flatten) ∧
      ((lines.map cut).flatten = content ↔
        0 ∉ content ∧ bufSize - 1 ∣ (Lines.unfinished lf content).length) := by
  obtain ⟨lines, rest, hcut, hlines, hmem, hlt, hcat⟩ := cat_pieces content s buf hlen
  have hrest := hcut.length_rest hlines hmem hlt
  refine ⟨lines, rest, hcut, hrest, hcat, ?_⟩
  rw [Nat.dvd_iff_mod_eq_zero, ← hrest, List.length_eq_zero_iff, ← hcut.flatten]
  exact flatten_cut_eq

/-- The last line of the file is not finished, and is not sent. -/
theorem cat_sent_two_lines : ∃ lines rest,
    Lines.Cut lf (bufSize - 1) [65, 10, 66, 67] lines rest ∧
      rest.length = (Lines.unfinished lf [65, 10, 66, 67]).length % (bufSize - 1) ∧
      cat ⟨[], [], false⟩ (List.replicate bufSize 0) ⟨[65, 10, 66, 67], false⟩ =
        pure (Client.send ⟨[], [], false⟩ (lines.map cut).flatten) ∧
      ((lines.map cut).flatten = [65, 10, 66, 67] ↔
        (0 : UInt8) ∉ [65, 10, 66, 67] ∧
          bufSize - 1 ∣ (Lines.unfinished lf [65, 10, 66, 67]).length) :=
  cat_sent [65, 10, 66, 67] ⟨[], [], false⟩ (List.replicate bufSize 0) List.length_replicate

/-- What is sent of a file without zero bytes. -/
def catSent (content : List UInt8) : List UInt8 :=
  content.take (content.length - (Lines.unfinished lf content).length % (bufSize - 1))

theorem cat_eq (hlen : buf.length = bufSize) (h : 0 ∉ content) :
    cat s buf ⟨content, false⟩ = pure (s.send (catSent content)) := by
  obtain ⟨lines, rest, hcut, hlines, hmem, hlt, hcat⟩ := cat_pieces content s buf hlen
  have hrest := hcut.length_rest hlines hmem hlt
  have hflat := hcut.flatten
  have hmap : lines.map cut = lines :=
    map_cut fun hz => h (hflat ▸ List.mem_append_left rest hz)
  rw [hcat, hmap, catSent, ← hrest, ← hflat, List.length_append, Nat.add_sub_cancel,
    List.take_left]

/-! ### Serving a file -/

/-- **A file is served** behind the headers of the answer, when those of the request are gone; a
file that cannot be opened makes the program call `fclose` on a null pointer. -/
theorem serveFile_eq (s : Client) {buf : List UInt8} (buf' : List UInt8)
    (hlen : buf.length = bufSize) :
    ∃ s', HeadersGone s s' ∧ serveFile none s buf buf' = throw .nullDeref ∧
      ∀ content, serveFile (some content) s buf buf' = cat (headers s') buf' ⟨content, false⟩ := by
  have hpos : (ascii "A").length < buf.length := hlen ▸ by decide
  obtain ⟨got, hgot, -, hgone⟩ := discardHeaders_returns 1 s (by decide)
    ((length_overwrite hpos).trans hlen) (isStr_overwrite buf (ascii "A")) (by decide)
  refine ⟨got.client, hgone, ?_, fun content => ?_⟩
  · rw [serveFile, putStr_front hpos, pure_bind, hgot, pure_bind]
  · rw [serveFile, putStr_front hpos, pure_bind, hgot, pure_bind]

end Httpd

end Candcpp
