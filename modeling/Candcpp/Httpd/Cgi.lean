import Candcpp.Httpd.Responses
import Candcpp.Httpd.RequestLine

/-!
# Starting a script

What `execute_cgi` of `tinyhttpd` does up to the moment in which there are two processes. The headers
of a `POST` are looked through for the length of the body; those of a `GET` are discarded.

A header is compared with `Content-Length:` in the first 15 bytes of its line, and the number is
taken from the byte 16 on, so that one byte behind the colon is never looked at. Of several such
headers the last one counts (`Candcpp.Httpd.postHeaders_eq`). Where the lines of the request end
with a linefeed, or with a carriage return and a linefeed, what is left to be received is the body,
byte for byte.

The environment of the script is printed into arrays of 255 bytes. The URL, which the query is a
part of, may be that long as well, so that **the query overflows its array exactly if it has more
than 241 bytes** (`Candcpp.Httpd.childEnv_get`).
-/

namespace Candcpp

namespace Httpd

open Cpp

/-! ### The code -/

/-- Whether `pipe`, `pipe` and `fork` succeed. -/
structure Kernel where
  pipeOutput : Bool
  pipeInput : Bool
  fork : Bool

/-- The two processes after `fork`: what the parent goes on with, and what the child calls
`execl` with, if it gets there. -/
structure Forked where
  client : Client
  post : Bool
  contentLength : ℤ
  path : List UInt8
  env : Exec (List (List UInt8))

/-- What comes of a request. -/
inductive Outcome where
  /-- The request has been answered. -/
  | answered (s : Client)
  /-- A script is to answer. -/
  | forked (f : Forked)

/-- The place of the zero byte that ends the name of a header. -/
def nameLength : ℕ := 15

/-- The loop over the headers of a `POST`. -/
def postHeaders (got : Got) (contentLength : ℤ) : Result (Got × ℤ) :=
  show Exec (Got × ℤ) from do
    let +zeta postHeaders : type_of% postHeaders := by apply postHeaders
    if 0 < got.numchars then
      if ← strcmp got.buf [lf] then
        pure (got, contentLength)
      else
        let buf ← setNth got.buf nameLength 0
        let contentLength ←
          if ← strcasecmp buf (ascii "Content-Length:") then atoi (buf.drop 16)
          else pure contentLength
        let got ← getLine got.client buf bufSize
        postHeaders got contentLength
    else
      pure (got, contentLength)
partial_fixpoint

/-- `sprintf(arr, …); putenv(arr);`, where `v` is what is printed: the string that is put into the
environment. -/
def putenv (arr : Chars wordSize) (v : List UInt8) : Exec (List UInt8) := do
  let arr ← putStr arr 0 v
  str arr 0

/-- The environment of the script. -/
def childEnv (stack : Stack) (method : List UInt8) (query : Option (List UInt8 × ℕ))
    (contentLength : ℤ) : Exec (List (List UInt8)) := do
  let m ← str method 0
  let methEnv ← putenv stack.methEnv (ascii "REQUEST_METHOD=" ++ m)
  if ← strcasecmp method (ascii "GET") then
    match query with
    | none => throw .nullDeref
    | some (url, p) => do
      let q ← str url p
      let queryEnv ← putenv stack.queryEnv (ascii "QUERY_STRING=" ++ q)
      pure [methEnv, queryEnv]
  else do
    let lengthEnv ← putenv stack.lengthEnv (ascii "CONTENT_LENGTH=" ++ decimal contentLength)
    pure [methEnv, lengthEnv]

/-- The pipes and the child, and the path that it executes. -/
def startScript (k : Kernel) (stack : Stack) (s : Client) (path method : List UInt8)
    (query : Option (List UInt8 × ℕ)) (post : Bool) (contentLength : ℤ) : Exec Outcome := do
  let p ← str path 0
  if k.pipeOutput ∧ k.pipeInput ∧ k.fork then
    pure (.forked
      { client := s, post := post, contentLength := contentLength, path := p
        env := childEnv stack method query contentLength })
  else
    pure (.answered (cannotExecute s))

/-- `execute_cgi`, up to `fork`. -/
def executeCgi (k : Kernel) (stack : Stack) (s : Client) (path method : List UInt8)
    (query : Option (List UInt8 × ℕ)) : Exec Outcome := do
  let buf ← putStr stack.cgiBuf 0 (ascii "A")
  if ← strcasecmp method (ascii "GET") then
    let got ← (discardHeaders ⟨1, buf, s⟩ : Exec Got)
    startScript k stack got.client path method query false (-1)
  else if ← strcasecmp method (ascii "POST") then
    let got ← getLine s buf bufSize
    let (got, contentLength) ← (postHeaders got (-1) : Exec (Got × ℤ))
    if contentLength = -1 then
      let s ← badRequest got.client stack.badBuf
      pure (.answered s)
    else
      startScript k stack got.client path method query true contentLength
  else
    startScript k stack s path method query false (-1)

/-! ### The length of the body -/

/-- A line of the headers says how long the body is. -/
def IsLength (line : List UInt8) : Prop :=
  (line.take nameLength).map tolower = (ascii "Content-Length:").map tolower

instance (line : List UInt8) : Decidable (IsLength line) := inferInstanceAs (Decidable (_ = _))

/-- The length of the body after a line of the headers has been looked at. -/
def lengthStep (len : ℤ) (line : List UInt8) : Exec ℤ :=
  if IsLength line then int (number (line.drop 16)) else pure len

variable {s : Client} {buf line : List UInt8} {hs : List (List UInt8)} {eol body : List UInt8}

/-- Bytes without a zero byte among them are all of their string. -/
theorem map_cut_eq {x lit : List UInt8} (hlen : x.length = lit.length) (hlit : 0 ∉ lit) :
    (cut x).map tolower = lit.map tolower ↔ x.map tolower = lit.map tolower := by
  have hself : cut x = x → ((cut x).map tolower = lit.map tolower ↔
      x.map tolower = lit.map tolower) := fun h => by rw [h]
  constructor
  · intro h
    have hl := congrArg List.length h
    rw [List.length_map, List.length_map, ← hlen] at hl
    exact (hself ((List.takeWhile_prefix _).eq_of_length hl)).mp h
  · intro h
    refine (hself (cut_eq_self fun hz => hlit ?_)).mpr h
    have hmem : tolower 0 ∈ lit.map tolower := h ▸ List.mem_map_of_mem hz
    obtain ⟨c, hc, hzero⟩ := List.mem_map.mp hmem
    rwa [(tolower_eq_zero c).mp hzero] at hc

/-- A name is compared in the first bytes of its line. -/
theorem strcasecmp_name (hbuf : buf.length = bufSize) :
    strcasecmp ((overwrite buf line).set nameLength 0) (ascii "Content-Length:") =
      pure (decide (IsLength line)) := by
  have hlit : 0 ∉ ascii "Content-Length:" := by decide
  have hlong : nameLength < (overwrite buf line).length := by
    have hsize : nameLength < bufSize := by decide
    simp only [overwrite, List.length_append, List.length_cons, List.length_drop]
    omega
  have hset : (overwrite buf line).set nameLength 0 =
      (overwrite buf line).take nameLength ++ 0 :: (overwrite buf line).drop (nameLength + 1) :=
    List.set_eq_take_append_cons_drop.trans (if_pos hlong)
  have hstr : IsStr ((overwrite buf line).set nameLength 0) 0
      (cut ((overwrite buf line).take nameLength)) :=
    hset ▸ ⟨zero_notMem_cut _, cut_append_zero_prefix _ _⟩
  rw [strcasecmp_eq hstr hlit]
  refine congrArg pure (decide_eq_decide.mpr ?_)
  show _ ↔ (line.take nameLength).map tolower = (ascii "Content-Length:").map tolower
  have hname : (ascii "Content-Length:").length = nameLength := by decide
  rcases Nat.lt_or_ge line.length nameLength with hshort | hge
  · -- the string and the line are too short
    refine iff_of_false (fun h => ?_) fun h => ?_
    · obtain ⟨r, hr⟩ : ∃ r, (overwrite buf line).take nameLength = line ++ 0 :: r := by
        obtain ⟨m, hm⟩ := Nat.exists_eq_add_of_lt hshort
        refine ⟨(buf.drop (line.length + 1)).take m, ?_⟩
        rw [overwrite, hm, Nat.add_assoc, List.take_length_add_append, List.take_succ_cons]
      have hl := congrArg List.length h
      rw [hr, cut_append_zero, List.length_map, List.length_map, hname] at hl
      have hle := (List.takeWhile_prefix (p := (· ≠ (0 : UInt8))) (l := line)).length_le
      rw [cut] at hl
      omega
    · have hl := congrArg List.length h
      rw [List.length_map, List.length_map, List.length_take] at hl
      omega
  · have htake : (overwrite buf line).take nameLength = line.take nameLength := by
      rw [overwrite, List.take_append_of_le_length hge]
    rw [htake]
    refine map_cut_eq ?_ hlit
    rw [List.length_take, Nat.min_eq_left hge, hname]

/-- The number behind the name is the one in the line. -/
theorem atoi_line (hlen : 16 ≤ line.length) :
    atoi (((overwrite buf line).set nameLength 0).drop 16) = int (number (line.drop 16)) := by
  have hdrop : ((overwrite buf line).set nameLength 0).drop 16 =
      line.drop 16 ++ 0 :: buf.drop (line.length + 1) := by
    rw [List.drop_set_of_lt (by decide), overwrite, List.drop_append_of_le_length hlen]
  rw [hdrop, atoi_append_zero]

/-- A line that says how long the body is has a byte behind the colon. -/
theorem IsLength.length {header : List UInt8} (h : IsLength (header ++ [lf])) :
    16 ≤ (header ++ [lf]).length := by
  have hname : (ascii "Content-Length:").length = nameLength := by decide
  have hl := congrArg List.length h
  rw [List.length_map, List.length_map, List.length_take, hname] at hl
  by_contra hlt
  -- the line would end with its name
  have hall : (header ++ [lf]).take nameLength = header ++ [lf] :=
    List.take_of_length_le (by rw [show nameLength = 15 from rfl]; omega)
  have hlast : ((header ++ [lf]).map tolower).getLast? =
      ((ascii "Content-Length:").map tolower).getLast? := by
    rw [← h, hall]
  rw [List.map_append, List.map_singleton, List.getLast?_concat] at hlast
  exact absurd hlast (by decide)

/-- The headers of a request, an empty line, and the body. -/
def block (eol : List UInt8) (hs : List (List UInt8)) (body : List UInt8) : List UInt8 :=
  (hs.map (· ++ eol)).flatten ++ eol ++ body

/-- A line of the headers fits into the buffer. -/
def IsHeader (line : List UInt8) : Prop :=
  cr ∉ line ∧ lf ∉ line ∧ line ≠ [] ∧ line.length < bufSize - 1

theorem block_cons (line : List UInt8) :
    block eol (line :: hs) body = line ++ eol ++ block eol hs body := by
  simp only [block, List.map_cons, List.flatten_cons, List.append_assoc]

/-- One header is looked at, and the next line is got. -/
theorem postHeaders_line {header : List UInt8} {numchars len : ℤ} (hpos : 0 < numchars)
    (hne : header ≠ []) (hlf : lf ∉ header) (hlen : header.length < bufSize - 1)
    (hbuf : buf.length = bufSize) :
    (postHeaders ⟨numchars, overwrite buf (header ++ [lf]), s⟩ len : Exec (Got × ℤ)) =
      lengthStep len (header ++ [lf]) >>= fun len =>
        getLine s ((overwrite buf (header ++ [lf])).set nameLength 0) bufSize >>= fun got =>
          (postHeaders got len : Exec (Got × ℤ)) := by
  have hblank : cut (header ++ [lf]) ≠ [lf] := by
    intro h
    have hpre : cut (header ++ [lf]) <+: header ++ [lf] := List.takeWhile_prefix _
    rw [h] at hpre
    obtain ⟨c, header, rfl⟩ := List.exists_cons_of_ne_nil hne
    rw [List.cons_append, List.cons_prefix_cons] at hpre
    exact hlf (hpre.1 ▸ List.mem_cons_self)
  have hfits : (header ++ [lf]).length < buf.length := by
    rw [List.length_append, hbuf, List.length_singleton]
    omega
  have hset : setNth (overwrite buf (header ++ [lf])) nameLength 0 =
      pure ((overwrite buf (header ++ [lf])).set nameLength 0) :=
    setNth_eq (by rw [length_overwrite hfits, hbuf]; decide) 0
  rw [postHeaders, if_pos hpos, strcmp_eq (isStr_overwrite _ _) (by decide), pure_bind,
    decide_eq_false hblank, if_neg Bool.false_ne_true, hset, pure_bind, strcasecmp_name hbuf,
    pure_bind, lengthStep]
  by_cases hname : IsLength (header ++ [lf])
  · rw [decide_eq_true hname, if_pos rfl, if_pos hname, atoi_line hname.length]
  · rw [decide_eq_false hname, if_neg Bool.false_ne_true, if_neg hname]

/-- **The headers of a `POST`** are looked through, and the last one counts that says how long the
body is. What is left is the body. -/
theorem postHeaders_eq (heol : eol = [lf] ∨ eol = [cr, lf]) (hhs : ∀ line ∈ hs, IsHeader line)
    (s : Client) (buf : List UInt8) (hbuf : buf.length = bufSize)
    (hinput : s.input = block eol hs body) : ∃ buf', ∀ len,
      (getLine s buf bufSize >>= fun got => (postHeaders got len : Exec (Got × ℤ))) =
        (hs.map (· ++ [lf])).foldlM lengthStep len >>= fun len =>
          pure (⟨1, buf', { s with input := body }⟩, len) := by
  induction hs generalizing s buf with
  | nil =>
    have hget := getLine_line [] hinput List.not_mem_nil List.not_mem_nil heol (by decide) hbuf
    refine ⟨overwrite buf [lf], fun len => ?_⟩
    have hpos : (0 : ℤ) < (([] ++ [lf] : List UInt8).length : ℤ) := by decide
    rw [hget, pure_bind, postHeaders, if_pos hpos, strcmp_eq (isStr_overwrite _ _) (by decide),
      pure_bind]
    rfl
  | cons line hs ih =>
    obtain ⟨⟨hcr, hlf, hne, hlen⟩, hhs⟩ := List.forall_mem_cons.mp hhs
    rw [block_cons] at hinput
    have hget := getLine_line line hinput hcr hlf heol hlen hbuf
    have hfits : (line ++ [lf]).length < buf.length := by
      rw [List.length_append, hbuf, List.length_singleton]
      omega
    have hbuf' : ((overwrite buf (line ++ [lf])).set nameLength 0).length = bufSize := by
      rw [List.length_set, length_overwrite hfits, hbuf]
    obtain ⟨buf', hrest⟩ := ih hhs { s with input := block eol hs body }
      ((overwrite buf (line ++ [lf])).set nameLength 0) hbuf' rfl
    refine ⟨buf', fun len => ?_⟩
    rw [hget, pure_bind, postHeaders_line (by simp) hne hlf hlen hbuf, List.map_cons,
      List.foldlM_cons, bind_assoc]
    exact bind_congr hrest

/-! ### The environment -/

theorem putenv_eq {v : List UInt8} (arr : Chars wordSize) (hz : 0 ∉ v) (h : v.length < wordSize) :
    putenv arr v = pure v := by
  have hstr := isStr_overwrite arr.1 v
  rw [cut_eq_self hz] at hstr
  rw [putenv, putStr_front (arr.2.symm ▸ h), pure_bind, hstr.str_eq]

theorem putenv_eq_throw {v : List UInt8} (arr : Chars wordSize) (h : wordSize ≤ v.length) :
    putenv arr v = throw .outOfRange := by
  rw [putenv, putStr_eq_throw (by rw [arr.2, Nat.zero_add]; exact h)]
  rfl

theorem zero_notMem_append {name v : List UInt8} (h : 0 ∉ name) (h' : 0 ∉ v) : 0 ∉ name ++ v :=
  fun hmem => (List.mem_append.mp hmem).elim h h'

variable {stack : Stack} {method url path m q : List UInt8} {p : ℕ} {k : Kernel}

/-- A method that is known fits into its array. -/
theorem putenv_method {name : String} (arr : Chars wordSize) (hm : 0 ∉ m)
    (hname : m.map tolower = (ascii name).map tolower) (hlen : (ascii name).length < 240) :
    putenv arr (ascii "REQUEST_METHOD=" ++ m) = pure (ascii "REQUEST_METHOD=" ++ m) := by
  refine putenv_eq arr (zero_notMem_append (by decide) hm) ?_
  have hl := congrArg List.length hname
  have hnum : (ascii "REQUEST_METHOD=").length + 240 = wordSize := by decide
  rw [List.length_map, List.length_map] at hl
  rw [List.length_append]
  omega

/-- **The query overflows its array** exactly if it has more than 241 bytes. -/
theorem childEnv_get (hm : IsStr method 0 m) (hget : m.map tolower = (ascii "GET").map tolower)
    (hq : IsStr url p q) (len : ℤ) : childEnv stack method (some (url, p)) len =
      if q.length ≤ 241 then
        pure [ascii "REQUEST_METHOD=" ++ m, ascii "QUERY_STRING=" ++ q]
      else throw .outOfRange := by
  have hname : (ascii "QUERY_STRING=").length + 242 = wordSize := by decide
  have hlen : (ascii "QUERY_STRING=" ++ q).length = (ascii "QUERY_STRING=").length + q.length :=
    List.length_append
  rw [childEnv, hm.str_eq, pure_bind, putenv_method stack.methEnv hm.1 hget (by decide), pure_bind,
    strcasecmp_eq hm (by decide), pure_bind, decide_eq_true hget, if_pos rfl]
  dsimp only
  rw [hq.str_eq, pure_bind]
  split_ifs with hle
  · rw [putenv_eq _ (zero_notMem_append (by decide) hq.1) (by omega), pure_bind]
  · rw [putenv_eq_throw _ (by omega)]
    rfl

/-- The environment of a `POST`. -/
theorem childEnv_post (hm : IsStr method 0 m)
    (hpost : m.map tolower = (ascii "POST").map tolower) (len : ℤ)
    (query : Option (List UInt8 × ℕ)) (hint : intMin ≤ len ∧ len ≤ intMax) :
    childEnv stack method query len =
      pure [ascii "REQUEST_METHOD=" ++ m, ascii "CONTENT_LENGTH=" ++ decimal len] := by
  have hname : (ascii "CONTENT_LENGTH=").length + 240 = wordSize := by decide
  have hlen := length_decimal_le hint
  have hnot : m.map tolower ≠ (ascii "GET").map tolower := by
    rw [hpost]
    decide
  rw [childEnv, hm.str_eq, pure_bind, putenv_method stack.methEnv hm.1 hpost (by decide), pure_bind,
    strcasecmp_eq hm (by decide), pure_bind, decide_eq_false hnot, if_neg Bool.false_ne_true,
    putenv_eq _ (zero_notMem_append (by decide) (zero_notMem_decimal len))
      (by rw [List.length_append]; omega), pure_bind]

/-! ### Before the script -/

/-- What `execute_cgi` has come to, once the headers are read. -/
theorem startScript_eq (k : Kernel) (stack : Stack) (s : Client) {query : Option (List UInt8 × ℕ)}
    {doc : List UInt8} (hpath : IsStr path 0 doc) (post : Bool) (len : ℤ) :
    startScript k stack s path method query post len =
      pure (if k.pipeOutput ∧ k.pipeInput ∧ k.fork then
        .forked { client := s, post := post, contentLength := len, path := doc
                  env := childEnv stack method query len }
      else .answered (cannotExecute s)) := by
  rw [startScript, hpath.str_eq, pure_bind]
  split_ifs <;> rfl

/-- **A `GET` starts its script** when its headers have been discarded. -/
theorem executeCgi_get (k : Kernel) (stack : Stack) (s : Client) {query : Option (List UInt8 × ℕ)}
    (hm : IsStr method 0 m) (hget : m.map tolower = (ascii "GET").map tolower) :
    ∃ s', HeadersGone s s' ∧ executeCgi k stack s path method query =
      startScript k stack s' path method query false (-1) := by
  have hpos : (ascii "A").length < stack.cgiBuf.1.length := stack.cgiBuf.2.symm ▸ by decide
  obtain ⟨got, hgot, -, hgone⟩ := discardHeaders_returns 1 s Int.one_pos
    ((length_overwrite hpos).trans stack.cgiBuf.2) (isStr_overwrite stack.cgiBuf.1 (ascii "A"))
    (by decide)
  refine ⟨got.client, hgone, ?_⟩
  rw [executeCgi, putStr_front hpos, pure_bind, strcasecmp_eq hm (by decide), pure_bind,
    decide_eq_true hget, if_pos rfl, hgot, pure_bind]

theorem sendBuf_eq {text : String} (h : (ascii text).length < buf.length) (s : Client) :
    sendBuf s buf text =
      pure (s.send (overwrite buf (ascii text)), overwrite buf (ascii text)) := by
  rw [sendBuf, putStr_front h, pure_bind]

/-- **A request is refused** with five buffers as a whole, what is behind the texts included. -/
theorem badRequest_eq (s : Client) (buf : Chars bufSize) :
    ∃ sent, badRequest s buf.1 = pure (s.send sent) ∧ sent.length = 5 * bufSize := by
  have hstep : ∀ (s : Client) (buf : List UInt8) (text : String), buf.length = bufSize →
      (ascii text).length < bufSize → ∃ buf', sendBuf s buf text = pure (s.send buf', buf') ∧
        buf'.length = bufSize := by
    intro s buf text hbuf htext
    rw [← hbuf] at htext
    exact ⟨_, sendBuf_eq htext s, (length_overwrite htext).trans hbuf⟩
  obtain ⟨b₁, h₁, hl₁⟩ := hstep s buf.1 "HTTP/1.0 400 BAD REQUEST\r\n" buf.2 (by decide)
  obtain ⟨b₂, h₂, hl₂⟩ := hstep (s.send b₁) b₁ "Content-type: text/html\r\n" hl₁ (by decide)
  obtain ⟨b₃, h₃, hl₃⟩ := hstep ((s.send b₁).send b₂) b₂ "\r\n" hl₂ (by decide)
  obtain ⟨b₄, h₄, hl₄⟩ := hstep (((s.send b₁).send b₂).send b₃) b₃
    "<P>Your browser sent a bad request, " hl₃ (by decide)
  obtain ⟨b₅, h₅, hl₅⟩ := hstep ((((s.send b₁).send b₂).send b₃).send b₄) b₄
    "such as a POST without a Content-Length.\r\n" hl₄ (by decide)
  refine ⟨b₁ ++ b₂ ++ b₃ ++ b₄ ++ b₅, ?_, ?_⟩
  · rw [badRequest, h₁, pure_bind]
    dsimp only
    rw [h₂, pure_bind]
    dsimp only
    rw [h₃, pure_bind]
    dsimp only
    rw [h₄, pure_bind]
    dsimp only
    rw [h₅, pure_bind]
    simp only [Client.send_send, List.append_assoc]
  · simp only [List.length_append]
    omega

/-- **A `POST` starts its script** with the length that its last header of the name gives; where
there is none, or it gives -1, the request is refused. -/
theorem executeCgi_post (k : Kernel) (stack : Stack) (s : Client)
    {query : Option (List UInt8 × ℕ)} (hm : IsStr method 0 m)
    (hpost : m.map tolower = (ascii "POST").map tolower) (heol : eol = [lf] ∨ eol = [cr, lf])
    (hhs : ∀ line ∈ hs, IsHeader line) (hinput : s.input = block eol hs body) :
    executeCgi k stack s path method query =
      (hs.map (· ++ [lf])).foldlM lengthStep (-1) >>= fun len =>
        if len = -1 then
          badRequest { s with input := body } stack.badBuf >>= fun s => pure (.answered s)
        else startScript k stack { s with input := body } path method query true len := by
  have hpos : (ascii "A").length < stack.cgiBuf.1.length := stack.cgiBuf.2.symm ▸ by decide
  have hnot : m.map tolower ≠ (ascii "GET").map tolower := by
    rw [hpost]
    decide
  obtain ⟨buf', hheaders⟩ := postHeaders_eq heol hhs s (overwrite stack.cgiBuf.1 (ascii "A"))
    ((length_overwrite hpos).trans stack.cgiBuf.2) hinput
  rw [executeCgi, putStr_front hpos, pure_bind, strcasecmp_eq hm (by decide), pure_bind,
    decide_eq_false hnot, if_neg Bool.false_ne_true, strcasecmp_eq hm (by decide), pure_bind,
    decide_eq_true hpost, if_pos rfl, ← bind_assoc, hheaders, bind_assoc]
  refine bind_congr fun len => ?_
  rw [pure_bind]

end Httpd

end Candcpp
