import Candcpp.Httpd.Cgi

/-!
# Answering a request

`accept_request` of `tinyhttpd`, from the first byte of a client to its answer, or to the two
processes that give it where a script is executed.

What is done about a request is a function of its first line and of the file system
(`Candcpp.Httpd.planOf`), whatever the arrays on the stack hold and whatever the client sends:
`Candcpp.Httpd.acceptRequest_follows`.

| the request | the answer |
|---|---|
| neither `GET` nor `POST` | 501, and the socket stays open |
| no such document | 404, when the headers have been discarded |
| a document that is not executable, without a query | the document, or a fault if it cannot be opened |
| anything else | a script |

A directory is executable as a rule, so that it is its `index.html` that is run as a script.
-/

namespace Candcpp

namespace Httpd

open Cpp

/-! ### The code -/

/-- What `stat` says about a document. -/
structure Mode where
  directory : Bool
  xusr : Bool
  xgrp : Bool
  xoth : Bool

/-- The file system: what `stat` finds at a path, and what `fopen` opens. -/
structure Site where
  stat : List UInt8 → Option Mode
  fopen : List UInt8 → Option (List UInt8)

/-- The socket is closed where the request has been answered. -/
def Outcome.close : Outcome → Outcome
  | answered s => answered s.close
  | forked f => forked f

/-- `if (S_ISDIR(st.st_mode)) strcat(path, "/index.html");` -/
def indexPath (mode : Mode) (path : List UInt8) : Exec (List UInt8) :=
  if mode.directory then strcat path (ascii "/index.html") else pure path

/-- The second half of `accept_request`, from the call of `stat` on. -/
def respond (site : Site) (k : Kernel) (stack : Stack) (got : Got) (method path : List UInt8)
    (query : Option (List UInt8 × ℕ)) (cgi : Bool) : Exec Outcome := do
  let p ← str path 0
  match site.stat p with
  | none => do
    let got ← (discardHeaders got : Exec Got)
    pure (.answered (notFound got.client).close)
  | some mode => do
    let path ← indexPath mode path
    if cgi ∨ mode.xusr ∨ mode.xgrp ∨ mode.xoth then
      let outcome ← executeCgi k stack got.client path method query
      pure outcome.close
    else
      let p ← str path 0
      let s ← serveFile (site.fopen p) got.client stack.serveBuf stack.catBuf
      pure (.answered s.close)

/-- `accept_request`. -/
def acceptRequest (site : Site) (k : Kernel) (stack : Stack) (s : Client) : Exec Outcome := do
  let got ← getLine s stack.buf bufSize
  let (j, method) ← readMethod got.buf stack.method
  let isGet ← strcasecmp method (ascii "GET")
  let isPost ← strcasecmp method (ascii "POST")
  if ¬ isGet ∧ ¬ isPost then
    -- returns without closing the socket
    pure (.answered (unimplemented got.client))
  else
    let url ← readUrl got.buf stack.url got.numchars.toNat j
    if isGet then
      let (cgi, url, p) ← splitQuery url
      let path ← makePath stack.path url
      respond site k stack got method path (some (url, p)) cgi
    else
      let path ← makePath stack.path url
      respond site k stack got method path none true

/-! ### What is to be done -/

/-- The method of a line, in letters of either case. -/
def HasMethod (name : String) (line : List UInt8) : Prop :=
  (methodOf line).map tolower = (ascii name).map tolower

instance (name : String) (line : List UInt8) : Decidable (HasMethod name line) :=
  inferInstanceAs (Decidable (_ = _))

/-- The document that a line asks for. -/
def documentPath (line : List UInt8) : List UInt8 :=
  documentOf (if HasMethod "GET" line then beforeQuery (urlOf line) else urlOf line)

/-- A line that asks for a script: a `POST`, or a URL with a query. -/
def AsksForScript (line : List UInt8) : Prop :=
  HasMethod "GET" line → questionMark ∈ urlOf line

instance (line : List UInt8) : Decidable (AsksForScript line) := inferInstanceAs (Decidable (_ → _))

/-- What is done about a request. -/
inductive Plan where
  | unsupported : Plan
  | missing : Plan
  | file (doc : List UInt8) : Plan
  | script (doc : List UInt8) : Plan
  deriving DecidableEq

/-- **What is done about a request** with a first line. -/
def planOf (site : Site) (line : List UInt8) : Plan :=
  if ¬ HasMethod "GET" line ∧ ¬ HasMethod "POST" line then .unsupported
  else match site.stat (documentPath line) with
    | none => .missing
    | some mode =>
      let doc := if mode.directory then documentPath line ++ ascii "/index.html"
        else documentPath line
      if AsksForScript line ∨ mode.xusr ∨ mode.xgrp ∨ mode.xoth then .script doc else .file doc

/-- The query that a script is called with. -/
def IsQuery (line : List UInt8) (query : Option (List UInt8 × ℕ)) : Prop :=
  HasMethod "GET" line → ∃ url p, query = some (url, p) ∧ IsStr url p (queryOf (urlOf line))

/-- **A plan is followed** by a function that answers a client, whose first line is `line` and
which is at `s` behind it. -/
def Plan.Follows (site : Site) (k : Kernel) (stack : Stack) (line : List UInt8) (s : Client)
    (e : Exec Outcome) : Plan → Prop
  | unsupported => e = pure (.answered (unimplemented s))
  | missing => ∃ s', HeadersGone s s' ∧ e = pure (.answered (notFound s').close)
  | file doc => e = serveFile (site.fopen doc) s stack.serveBuf stack.catBuf >>= fun s =>
      pure (.answered s.close)
  | script doc => ∃ path method query, IsStr path 0 doc ∧ IsStr method 0 (methodOf line) ∧
      IsQuery line query ∧ e = executeCgi k stack s path method query >>= fun o => pure o.close

variable {site : Site} {k : Kernel} {stack : Stack} {line : List UInt8} {s : Client}

/-- The document fits into the path, with room for what is appended to it. -/
theorem length_documentPath (line : List UInt8) : (documentPath line).length ≤ 270 := by
  have hurl : (urlOf line).length < wordSize :=
    (List.takeWhile_prefix _).length_le.trans_lt (length_word_lt _)
  have hname : ∀ u : List UInt8, u.length < wordSize → (documentOf u).length ≤ 270 := by
    intro u hu
    have hnum : (ascii "htdocs").length + wordSize + (ascii "index.html").length = 271 := by decide
    rw [documentOf]
    split_ifs <;> simp only [List.length_append] <;> omega
  rw [documentPath]
  refine hname _ ?_
  split_ifs
  · exact (List.takeWhile_prefix _).length_le.trans_lt hurl
  · exact hurl

/-- A line with a method is not empty. -/
theorem HasMethod.ne {name : String} (h : HasMethod name line) (hname : ascii name ≠ []) :
    line ≠ [] ∧ line ≠ [lf] := by
  have hne : methodOf line ≠ [] := by
    intro hnil
    rw [HasMethod, hnil, List.map_nil] at h
    exact hname (List.map_eq_nil_iff.mp h.symm)
  constructor
  · rintro rfl
    exact hne rfl
  · rintro rfl
    exact hne (by decide)

theorem strcasecmp_method {method : List UInt8} {name : String}
    (hm : IsStr method 0 (methodOf line)) (hname : 0 ∉ ascii name) :
    strcasecmp method (ascii name) = pure (decide (HasMethod name line)) :=
  strcasecmp_eq hm hname

/-- **The second half** follows the plan, where the first half has found what the line says. -/
theorem respond_follows {method path : List UInt8} {query : Option (List UInt8 × ℕ)} {cgi : Bool}
    (hsup : HasMethod "GET" (s.line 1023) ∨ HasMethod "POST" (s.line 1023))
    (hm : IsStr method 0 (methodOf (s.line 1023))) (hlen : path.length = pathSize)
    (hpath : IsStr path 0 (documentPath (s.line 1023))) (hq : IsQuery (s.line 1023) query)
    (hcgi : cgi = true ↔ AsksForScript (s.line 1023)) :
    (planOf site (s.line 1023)).Follows site k stack (s.line 1023) (s.after 1023)
      (respond site k stack ⟨(s.line 1023).length, s.stored 1023 stack.buf, s.after 1023⟩ method path
        query cgi) := by
  have hnot : ¬ (¬ HasMethod "GET" (s.line 1023) ∧ ¬ HasMethod "POST" (s.line 1023)) := fun h =>
    hsup.elim h.1 h.2
  rw [planOf, if_neg hnot, respond, hpath.str_eq, pure_bind]
  cases hstat : site.stat (documentPath (s.line 1023)) with
  | none =>
    -- the first line is not taken for the end of the headers
    have hne : s.line 1023 ≠ [] ∧ s.line 1023 ≠ [lf] :=
      hsup.elim (fun h => h.ne (by decide)) fun h => h.ne (by decide)
    have hpos : (0 : ℤ) < (s.line 1023).length :=
      Int.natCast_pos.mpr (List.length_pos_iff.mpr hne.1)
    have hbuf : 1023 < stack.buf.1.length := stack.buf.2.symm ▸ by decide
    obtain ⟨got, hgot, -, hgone⟩ := discardHeaders_returns _ (s.after 1023) hpos
      ((s.length_stored hbuf).trans stack.buf.2) (s.isStr_stored 1023 stack.buf)
      (mt cut_line_eq_lf.mp hne.2)
    refine ⟨got.client, hgone, ?_⟩
    dsimp only
    rw [hgot, pure_bind]
  | some mode =>
    have hroom : (documentPath (s.line 1023)).length + (ascii "/index.html").length < path.length := by
      have hdoc := length_documentPath (s.line 1023)
      have hnum : 270 + (ascii "/index.html").length < pathSize := by decide
      omega
    obtain ⟨path', hdir, hpath'⟩ : ∃ path', indexPath mode path = pure path' ∧
        IsStr path' 0 (if mode.directory then documentPath (s.line 1023) ++ ascii "/index.html"
          else documentPath (s.line 1023)) := by
      rw [indexPath]
      split_ifs with hd
      · obtain ⟨path', hcat, -, hstr⟩ := strcat_eq hpath (by decide) hroom
        exact ⟨path', hcat, hstr⟩
      · exact ⟨path, rfl, hpath⟩
    dsimp only
    rw [hdir, pure_bind]
    by_cases hscript : AsksForScript (s.line 1023) ∨ mode.xusr ∨ mode.xgrp ∨ mode.xoth
    · rw [if_pos hscript, if_pos (hscript.imp_left hcgi.mpr)]
      exact ⟨path', method, query, hpath', hm, hq, rfl⟩
    · rw [if_neg hscript, if_neg (mt (Or.imp_left hcgi.mp) hscript), hpath'.str_eq, pure_bind]
      rfl

/-- **Every request is answered by its plan**: whatever the client sends and whatever the arrays on
the stack hold, what is done depends on the first line and the file system only. -/
theorem acceptRequest_follows (site : Site) (k : Kernel) (stack : Stack) (s : Client) :
    (planOf site (s.line 1023)).Follows site k stack (s.line 1023) (s.after 1023)
      (acceptRequest site k stack s) := by
  have hbuf : 1023 < stack.buf.1.length := stack.buf.2.symm ▸ by decide
  have hget : getLine s stack.buf.1 bufSize = _ := getLine_eq hbuf
  have hstored : s.stored 1023 stack.buf.1 =
      s.line 1023 ++ 0 :: stack.buf.1.drop ((s.line 1023).length + 1) := rfl
  have hlen : (s.stored 1023 stack.buf.1).length = bufSize :=
    (s.length_stored hbuf).trans stack.buf.2
  have hlong : wordSize < (s.stored 1023 stack.buf.1).length := by
    rw [hlen]
    decide
  obtain ⟨j, method, hmethod, -, hm, hj, hdrop⟩ :=
    readMethod_eq hstored hlong.le stack.method.2
  rw [acceptRequest, hget, pure_bind]
  dsimp only
  rw [hmethod, pure_bind]
  dsimp only
  rw [strcasecmp_method hm (by decide), pure_bind, strcasecmp_method hm (by decide), pure_bind]
  by_cases hsup : HasMethod "GET" (s.line 1023) ∨ HasMethod "POST" (s.line 1023)
  · obtain ⟨url, hurl, hurllen, hu⟩ :=
      readUrl_eq hstored (hj.trans hlong) stack.url.2
    rw [hdrop] at hu
    change IsStr url 0 (urlOf (s.line 1023)) at hu
    have hulen : (urlOf (s.line 1023)).length < wordSize :=
      (List.takeWhile_prefix _).length_le.trans_lt (length_word_lt _)
    by_cases hGET : HasMethod "GET" (s.line 1023)
    · obtain ⟨url', q, hsplit, -, hbefore, hquery⟩ := splitQuery_eq hu
      have hblen : (beforeQuery (urlOf (s.line 1023))).length < wordSize :=
        (List.takeWhile_prefix _).length_le.trans_lt hulen
      obtain ⟨path, hpath, hplen, hdoc⟩ := makePath_eq hbefore hblen stack.path.2
      have hdoc' : IsStr path 0 (documentPath (s.line 1023)) := by
        rwa [documentPath, if_pos hGET]
      rw [decide_eq_true hGET, if_neg (fun h => h.1 rfl), Int.toNat_natCast, hurl, pure_bind,
        if_pos rfl, hsplit, pure_bind]
      dsimp only
      rw [hpath, pure_bind]
      refine respond_follows hsup hm hplen hdoc' (fun _ => ⟨url', q, rfl, hquery⟩) ?_
      rw [decide_eq_true_eq, AsksForScript]
      exact (imp_iff_right hGET).symm
    · obtain ⟨path, hpath, hplen, hdoc⟩ := makePath_eq hu hulen stack.path.2
      have hdoc' : IsStr path 0 (documentPath (s.line 1023)) := by
        rwa [documentPath, if_neg hGET]
      have hPOST := hsup.resolve_left hGET
      rw [decide_eq_false hGET, decide_eq_true hPOST, if_neg (fun h => h.2 rfl), Int.toNat_natCast,
        hurl, pure_bind, if_neg Bool.false_ne_true, hpath, pure_bind]
      exact respond_follows hsup hm hplen hdoc' (fun h => absurd h hGET)
        (iff_of_true rfl fun h => absurd h hGET)
  · obtain ⟨hGET, hPOST⟩ := not_or.mp hsup
    rw [decide_eq_false hGET, decide_eq_false hPOST,
      if_pos ⟨Bool.false_ne_true, Bool.false_ne_true⟩, planOf, if_pos ⟨hGET, hPOST⟩]
    rfl

end Httpd

end Candcpp
