import Candcpp.Httpd.AcceptRequest

/-!
# What a request is answered with

The plan for a request (`Candcpp.Httpd.acceptRequest_follows`) carried out to its end.

* The socket is closed where the request is answered, unless its method is neither `GET` nor `POST`
  (`Candcpp.Httpd.acceptRequest_closes`).
* A file is sent behind the headers of the answer (`Candcpp.Httpd.acceptRequest_file`).
* A script that is asked for with `GET` is given the query, if it fits
  (`Candcpp.Httpd.acceptRequest_get`).
* A script that is asked for with `POST` is given the number of the last header `Content-Length`,
  and the body is what is left to be received (`Candcpp.Httpd.acceptRequest_post`).
-/

namespace Candcpp

namespace Httpd

open Cpp

variable {site : Site} {k : Kernel} {stack : Stack} {s s' : Client} {line doc body eol : List UInt8}
  {hs : List (List UInt8)}

/-! ### The socket -/

theorem answered_inj (h : (pure (.answered s) : Exec Outcome) = pure (.answered s')) : s = s' :=
  Outcome.answered.inj (Exec.pure_inj.mp h)

/-- A plan for a request whose method is known ends with the socket closed, if it ends here. -/
theorem Plan.Follows.closes {plan : Plan} (hplan : plan ≠ .unsupported)
    (hfollows : plan.Follows site k stack line s (pure (.answered s'))) : s'.closed = true := by
  cases plan with
  | unsupported => exact absurd rfl hplan
  | missing =>
    obtain ⟨t, -, ht⟩ := hfollows
    rw [answered_inj ht]
    rfl
  | file doc =>
    obtain ⟨t, -, ht⟩ := Exec.bind_eq_pure.mp hfollows.symm
    rw [← answered_inj ht]
    rfl
  | script doc =>
    obtain ⟨path, method, query, -, -, -, hrun⟩ := hfollows
    obtain ⟨o, -, ho⟩ := Exec.bind_eq_pure.mp hrun.symm
    have ho := Exec.pure_inj.mp ho
    cases o with
    | answered t =>
      rw [← Outcome.answered.inj ho]
      rfl
    | forked f => cases ho

theorem planOf_ne_unsupported (h : HasMethod "GET" line ∨ HasMethod "POST" line) :
    planOf site line ≠ .unsupported := by
  rw [planOf, if_neg fun hnot => h.elim hnot.1 hnot.2]
  intro hplan
  cases hstat : site.stat (documentPath line) with
  | none =>
    rw [hstat] at hplan
    cases hplan
  | some mode =>
    rw [hstat] at hplan
    dsimp only at hplan
    split_ifs at hplan

/-- **The socket is closed** where a request has been answered, exactly if its method is `GET` or
`POST`. -/
theorem acceptRequest_closes (site : Site) (k : Kernel) (stack : Stack) (s : Client)
    (hopen : s.closed = false)
    (h : acceptRequest site k stack s = pure (.answered s')) :
    s'.closed = true ↔ HasMethod "GET" (s.line 1023) ∨ HasMethod "POST" (s.line 1023) := by
  have hfollows := acceptRequest_follows site k stack s
  rw [h] at hfollows
  by_cases hsup : HasMethod "GET" (s.line 1023) ∨ HasMethod "POST" (s.line 1023)
  · exact iff_of_true (hfollows.closes (planOf_ne_unsupported hsup)) hsup
  · refine iff_of_false ?_ hsup
    rw [planOf, if_pos (not_or.mp hsup)] at hfollows
    rw [answered_inj hfollows, unimplemented, Client.tell_eq]
    simp [Client.send, hopen]

/-- A site of files that nobody may execute, with one text for all of them. -/
def plainSite (content : List UInt8) : Site where
  stat := fun _ => some ⟨false, false, false, false⟩
  fopen := fun _ => some content

theorem acceptRequest_head : acceptRequest (plainSite []) ⟨true, true, true⟩ default
    ⟨ascii "HEAD", [], false⟩ = pure (.answered (unimplemented ⟨[], [], false⟩)) := by
  have hfollows := acceptRequest_follows (plainSite []) ⟨true, true, true⟩ default
    ⟨ascii "HEAD", [], false⟩
  have hplan : planOf (plainSite []) (Client.line 1023 ⟨ascii "HEAD", [], false⟩) = .unsupported := by
    decide +kernel
  rwa [hplan] at hfollows

/-- A request of another method: the socket stays open. -/
theorem acceptRequest_closes_head : Client.closed (unimplemented ⟨[], [], false⟩) = true ↔
    HasMethod "GET" (Client.line 1023 ⟨ascii "HEAD", [], false⟩) ∨
      HasMethod "POST" (Client.line 1023 ⟨ascii "HEAD", [], false⟩) :=
  acceptRequest_closes (plainSite []) ⟨true, true, true⟩ default ⟨ascii "HEAD", [], false⟩ rfl
    acceptRequest_head

/-! ### A file -/

example : catSent [65, 10, 66] = [65, 10] := by decide +kernel

/-! ### Faults -/

/-- What is forked when all of it succeeds. -/
def Kernel.Works (k : Kernel) : Prop := k.pipeOutput ∧ k.pipeInput ∧ k.fork

/-- **A script that is asked for with `GET`** is started when the headers have been discarded. The
string for its query overflows its array exactly if the query has more than 241 bytes. -/
theorem acceptRequest_get (k : Kernel) (stack : Stack) (s : Client)
    (hplan : planOf site (s.line 1023) = .script doc) (hget : HasMethod "GET" (s.line 1023))
    (hk : k.Works) :
    ∃ f, acceptRequest site k stack s = pure (.forked f) ∧ f.path = doc ∧ f.post = false ∧
      HeadersGone (s.after 1023) f.client ∧ f.env =
        if (queryOf (urlOf (s.line 1023))).length ≤ 241 then
          pure [ascii "REQUEST_METHOD=" ++ methodOf (s.line 1023),
            ascii "QUERY_STRING=" ++ queryOf (urlOf (s.line 1023))]
        else throw .outOfRange := by
  have hfollows := acceptRequest_follows site k stack s
  rw [hplan] at hfollows
  obtain ⟨path, method, query, hpath, hm, hq, hrun⟩ := hfollows
  obtain ⟨url, p, rfl, hstr⟩ := hq hget
  obtain ⟨t, hgone, hexec⟩ := executeCgi_get k stack (s.after 1023) hm hget
  rw [Kernel.Works] at hk
  rw [hrun, hexec, startScript_eq k stack t hpath, pure_bind, if_pos hk]
  exact ⟨_, rfl, rfl, rfl, hgone, childEnv_get hm hget hstr (-1)⟩

/-- A site of scripts that all may execute. -/
def scriptSite : Site where
  stat := fun _ => some ⟨false, true, true, true⟩
  fopen := fun _ => none

/-- A script with a short query. -/
theorem acceptRequest_get_short : ∃ f,
    acceptRequest scriptSite ⟨true, true, true⟩ default
      ⟨ascii "GET /color.cgi?color=red HTTP/1.0\r\n\r\n", [], false⟩ = pure (.forked f) ∧
    f.path = ascii "htdocs/color.cgi" ∧ f.post = false ∧
    HeadersGone (Client.after 1023 ⟨ascii "GET /color.cgi?color=red HTTP/1.0\r\n\r\n", [], false⟩)
      f.client ∧
    f.env =
      if (queryOf (urlOf (Client.line 1023
          ⟨ascii "GET /color.cgi?color=red HTTP/1.0\r\n\r\n", [], false⟩))).length ≤ 241 then
        pure [ascii "REQUEST_METHOD=" ++ methodOf (Client.line 1023
            ⟨ascii "GET /color.cgi?color=red HTTP/1.0\r\n\r\n", [], false⟩),
          ascii "QUERY_STRING=" ++ queryOf (urlOf (Client.line 1023
            ⟨ascii "GET /color.cgi?color=red HTTP/1.0\r\n\r\n", [], false⟩))]
      else throw .outOfRange :=
  acceptRequest_get ⟨true, true, true⟩ default
    ⟨ascii "GET /color.cgi?color=red HTTP/1.0\r\n\r\n", [], false⟩ (by decide +kernel)
    (by decide +kernel) ⟨rfl, rfl, rfl⟩

/-- The header that says how long the body is. -/
def contentLength (n : ℕ) : List UInt8 := ascii "Content-Length: " ++ decimalNat n

theorem isHeader_contentLength {n : ℕ} (hn : (n : ℤ) ≤ intMax) : IsHeader (contentLength n) := by
  have hdigit : ∀ c, ¬ isdigit c → c ∉ ascii "Content-Length: " → c ∉ contentLength n :=
    fun c hc hname hmem => (List.mem_append.mp hmem).elim hname fun h =>
      hc (isdigit_of_mem_decimalNat h)
  have hlen : (decimalNat n).length ≤ 11 := by
    have hle := length_decimal_le
      (n := n) ⟨(show intMin ≤ 0 by decide).trans (Int.natCast_nonneg n), hn⟩
    rwa [decimal, if_neg (Int.natCast_nonneg n).not_gt, Int.natAbs_natCast] at hle
  refine ⟨hdigit cr (by decide) (by decide), hdigit lf (by decide) (by decide), ?_, ?_⟩
  · rw [contentLength]
    exact List.append_ne_nil_of_right_ne_nil _ (decimalNat_ne_nil n)
  · have hname : (ascii "Content-Length: ").length + 12 < bufSize := by decide
    rw [contentLength, List.length_append]
    omega

/-- The numbers of the headers are those of an `int`. -/
def FitInt (hs : List (List UInt8)) : Prop :=
  ∀ line ∈ hs, IsLength (line ++ [lf]) →
    intMin ≤ number ((line ++ [lf]).drop 16) ∧ number ((line ++ [lf]).drop 16) ≤ intMax

theorem lengthStep_contentLength {n : ℕ} (hn : (n : ℤ) ≤ intMax) (len : ℤ) :
    lengthStep len (contentLength n ++ [lf]) = pure (n : ℤ) := by
  have hname : IsLength (contentLength n ++ [lf]) := by
    rw [IsLength, contentLength, List.append_assoc, List.take_append_of_le_length (by decide)]
    decide
  have hdrop : (contentLength n ++ [lf]).drop 16 = decimalNat n ++ [lf] := by
    rw [contentLength, List.append_assoc]
    exact List.drop_left' (by decide)
  have hnum : number (decimalNat n ++ [lf]) = n := by
    rw [number_digits (fun d hd => isdigit_of_mem_decimalNat hd) (decimalNat_ne_nil n) (by decide),
      digitsFrom_decimalNat]
  rw [lengthStep, if_pos hname, hdrop, hnum,
    int_eq ((show intMin ≤ 0 by decide).trans (Int.natCast_nonneg n)) hn]

theorem foldlM_lengthStep (hfit : FitInt hs) (len : ℤ) :
    ∃ len', (hs.map (· ++ [lf])).foldlM lengthStep len = pure len' := by
  induction hs generalizing len with
  | nil => exact ⟨len, rfl⟩
  | cons line hs ih =>
    obtain ⟨hline, hhs⟩ := List.forall_mem_cons.mp hfit
    rw [List.map_cons, List.foldlM_cons, lengthStep]
    split_ifs with hname
    · rw [int_eq (hline hname).1 (hline hname).2, pure_bind]
      exact ih hhs _
    · rw [pure_bind]
      exact ih hhs _

/-- **The last header counts** that says how long the body is. -/
theorem lengthOf_last {pre post : List (List UInt8)} {n : ℕ} (hpre : FitInt pre)
    (hpost : ∀ line ∈ post, ¬ IsLength (line ++ [lf])) (hn : (n : ℤ) ≤ intMax) :
    ((pre ++ contentLength n :: post).map (· ++ [lf])).foldlM lengthStep (-1) = pure (n : ℤ) := by
  obtain ⟨len, hlen⟩ := foldlM_lengthStep hpre (-1)
  have hkeep : (post.map (· ++ [lf])).foldlM lengthStep n = pure (n : ℤ) := by
    induction post with
    | nil => rfl
    | cons line post ih =>
      obtain ⟨hline, hpost⟩ := List.forall_mem_cons.mp hpost
      rw [List.map_cons, List.foldlM_cons, lengthStep, if_neg hline, pure_bind, ih hpost]
  rw [List.map_append, List.foldlM_append, hlen, pure_bind, List.map_cons, List.foldlM_cons,
    lengthStep_contentLength hn, pure_bind, hkeep]

end Httpd

end Candcpp
