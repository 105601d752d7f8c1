import Candcpp.Httpd.GetLine

/-!
# The first line of a request

How `accept_request` of `tinyhttpd` takes the first line of a request apart: the method, the URL,
the query behind its question mark, and the path of the document.

The words are copied into arrays on the stack that are not initialised, out of one that is not
either, and the method is copied without a look at how long the line is. Even so **what is found
depends on the line only, and no byte outside an array is read or written**, whatever the client has
sent: `Candcpp.Httpd.readMethod_eq`, `Candcpp.Httpd.readUrl_eq`, `Candcpp.Httpd.splitQuery_eq` and
`Candcpp.Httpd.makePath_eq` say what is found, as functions of the line.
-/

namespace Candcpp

namespace Httpd

open Cpp

/-! ### The code -/

/-- `sizeof(method)`, and `sizeof(url)`. -/
def wordSize : ℕ := 255

/-- `sizeof(path)`. -/
def pathSize : ℕ := 512

/-- An array of characters, of a length. -/
abbrev Chars (n : ℕ) := { a : List UInt8 // a.length = n }

/-- **What the arrays on the stack hold at first**, of all the functions that answer a request.
Nothing is known about it. -/
structure Stack where
  buf : Chars bufSize
  method : Chars wordSize
  url : Chars wordSize
  path : Chars pathSize
  serveBuf : Chars bufSize
  catBuf : Chars bufSize
  badBuf : Chars bufSize
  cgiBuf : Chars bufSize
  methEnv : Chars wordSize
  queryEnv : Chars wordSize
  lengthEnv : Chars wordSize

/-- An array of zero bytes. -/
def Chars.zero (n : ℕ) : Chars n := ⟨List.replicate n 0, List.length_replicate⟩

instance : Inhabited Stack :=
  ⟨⟨.zero _, .zero _, .zero _, .zero _, .zero _, .zero _, .zero _, .zero _, .zero _, .zero _,
    .zero _⟩⟩

/-- `while (!ISspace(buf[j]) && (i < sizeof(dst) - 1) && …) { dst[i] = buf[j]; i++; j++; }`, where
`more` is the last of the conditions. -/
def copyWord (more : ℕ → Bool) (buf dst : List UInt8) (i j : ℕ) : Result (List UInt8 × ℕ × ℕ) :=
  show Exec (List UInt8 × ℕ × ℕ) from do
    let +zeta copyWord : type_of% copyWord := by apply copyWord
    let c ← nth buf j
    if !isspace c ∧ i < wordSize - 1 ∧ more j then
      let dst ← setNth dst i c
      copyWord more buf dst (i + 1) (j + 1)
    else
      pure (dst, i, j)
partial_fixpoint

/-- `while (ISspace(buf[j]) && (j < numchars)) j++;` -/
def skipSpaces (buf : List UInt8) (numchars j : ℕ) : Result ℕ :=
  show Exec ℕ from do
    let +zeta skipSpaces : type_of% skipSpaces := by apply skipSpaces
    let c ← nth buf j
    if isspace c ∧ j < numchars then skipSpaces buf numchars (j + 1) else pure j
partial_fixpoint

/-- The method is copied into its array, up to the first space. The first one of the results is
where the line goes on. -/
def readMethod (buf method : List UInt8) : Exec (ℕ × List UInt8) := do
  let (method, i, _) ← (copyWord (fun _ => true) buf method 0 0 : Exec (List UInt8 × ℕ × ℕ))
  let method ← setNth method i 0
  pure (i, method)

/-- The URL is copied into its array. -/
def readUrl (buf url : List UInt8) (numchars j : ℕ) : Exec (List UInt8) := do
  let j ← (skipSpaces buf numchars j : Exec ℕ)
  let (url, i, _) ←
    (copyWord (fun j => j < numchars) buf url 0 j : Exec (List UInt8 × ℕ × ℕ))
  setNth url i 0

/-- `'?'`. -/
def questionMark : UInt8 := 63

/-- `while ((*query_string != '?') && (*query_string != '\0')) query_string++;` -/
def findQuery (url : List UInt8) (p : ℕ) : Result ℕ :=
  show Exec ℕ from do
    let +zeta findQuery : type_of% findQuery := by apply findQuery
    let c ← nth url p
    if c ≠ questionMark ∧ c ≠ 0 then findQuery url (p + 1) else pure p
partial_fixpoint

/-- The query of a URL: whether there is one, the URL without it, and where it is. -/
def splitQuery (url : List UInt8) : Exec (Bool × List UInt8 × ℕ) := do
  let p ← (findQuery url 0 : Exec ℕ)
  let c ← nth url p
  if c = questionMark then
    let url ← setNth url p 0
    pure (true, url, p + 1)
  else
    pure (false, url, p)

/-- `'/'`. -/
def slash : UInt8 := 47

/-- `strcat(a, s)`. -/
def strcat (a s : List UInt8) : Exec (List UInt8) := do
  let l ← str a 0
  putStr a l.length s

/-- The path of the document that a URL names. -/
def makePath (path url : List UInt8) : Exec (List UInt8) := do
  let l ← str url 0
  let path ← putStr path 0 (ascii "htdocs" ++ l)
  let l ← str path 0
  let c ← nth path (l.length - 1)
  if c = slash then strcat path (ascii "index.html") else pure path

/-! ### What a line says -/

/-- The first word of a line, as far as it fits. -/
def word (line : List UInt8) : List UInt8 := (line.takeWhile (!isspace ·)).take (wordSize - 1)

/-- The method that a line names. -/
def methodOf (line : List UInt8) : List UInt8 := cut (word line)

/-- What follows the method. -/
def afterMethod (line : List UInt8) : List UInt8 := line.drop (word line).length

/-- The URL that a line names. -/
def urlOf (line : List UInt8) : List UInt8 := cut (word ((afterMethod line).dropWhile isspace))

/-- A URL without its query. -/
def beforeQuery (url : List UInt8) : List UInt8 := url.takeWhile (· ≠ questionMark)

/-- The query of a URL. -/
def queryOf (url : List UInt8) : List UInt8 := (url.dropWhile (· ≠ questionMark)).tail

/-- The document that a URL without its query names. -/
def documentOf (url : List UInt8) : List UInt8 :=
  if (ascii "htdocs" ++ url).getLast? = some slash then
    ascii "htdocs" ++ url ++ ascii "index.html"
  else
    ascii "htdocs" ++ url

/-! ### Words -/

variable {more : ℕ → Bool} {buf w p d t line garbage : List UInt8} {c : UInt8} {i j n : ℕ}

theorem copyWord_stop (hbuf : buf.drop j = c :: t)
    (hend : isspace c = true ∨ wordSize - 1 ≤ i ∨ more j = false) :
    copyWord more buf d i j = (pure (d, i, j) : Exec (List UInt8 × ℕ × ℕ)) := by
  rw [copyWord, nth_of_drop hbuf, pure_bind, if_neg]
  rintro ⟨hc, hi, hj⟩
  rcases hend with h | h | h
  · simp [h] at hc
  · omega
  · exact absurd (hj.symm.trans h) (by decide)

theorem copyWord_step {y : UInt8} (hbuf : buf.drop j = c :: t) (hc : isspace c = false)
    (hi : p.length < wordSize - 1) (hj : more j = true) :
    copyWord more buf (p ++ y :: d) p.length j =
      copyWord more buf (p ++ [c] ++ d) (p ++ [c]).length (j + 1) := by
  have hset : setNth (p ++ y :: d) p.length c = pure (p ++ [c] ++ d) := by
    rw [setNth_eq (by simp)]
    simp
  rw [copyWord, nth_of_drop hbuf, pure_bind, if_pos ⟨by simp [hc], hi, hj⟩, hset, pure_bind,
    List.length_append]
  rfl

/-- **A word is copied** up to a byte `c` that ends it. -/
theorem copyWord_eq (hbuf : buf.drop j = w ++ c :: t) (hw : ∀ x ∈ w, isspace x = false)
    (hmore : ∀ k < w.length, more (j + k) = true) (hlen : p.length + w.length < wordSize)
    (hroom : w.length ≤ d.length)
    (hend : isspace c = true ∨ wordSize - 1 ≤ p.length + w.length ∨
      more (j + w.length) = false) :
    copyWord more buf (p ++ d) p.length j =
      (pure (p ++ w ++ d.drop w.length, (p ++ w).length, j + w.length) :
        Exec (List UInt8 × ℕ × ℕ)) := by
  induction w generalizing p d j with
  | nil =>
    refine (copyWord_stop hbuf hend).trans ?_
    simp
  | cons x w ih =>
    obtain ⟨hx, hw⟩ := List.forall_mem_cons.mp hw
    obtain ⟨y, d, rfl⟩ := List.exists_cons_of_length_pos (Nat.zero_lt_of_lt hroom)
    have hdrop : buf.drop (j + 1) = w ++ c :: t := by
      rw [← List.drop_drop, hbuf]
      rfl
    rw [List.length_cons] at hmore hlen hroom hend
    have hlen' : (p ++ [x]).length = p.length + 1 := List.length_append
    have hsucc : j + 1 + w.length = j + (w.length + 1) := by omega
    have hmore' : ∀ k < w.length, more (j + 1 + k) = true := fun k hk => by
      rw [Nat.add_right_comm]
      exact hmore (k + 1) (Nat.succ_lt_succ hk)
    have hend' : isspace c = true ∨ wordSize - 1 ≤ (p ++ [x]).length + w.length ∨
        more (j + 1 + w.length) = false := by
      rwa [hlen', hsucc, Nat.add_right_comm]
    rw [copyWord_step hbuf hx (by omega) (hmore 0 (Nat.succ_pos _)),
      ih hdrop hw hmore' (by omega) (by simpa using hroom) hend']
    simp [hsucc]

/-- **A word and what follows it**: a space, or anything behind a word that is as long as can be. -/
theorem word_append (l : List UInt8) : ∃ r, l = word l ++ r ∧
    ∀ c t, r = c :: t → isspace c = true ∨ wordSize - 1 ≤ (word l).length := by
  obtain ⟨r, hr⟩ : word l <+: l := (List.take_prefix _ _).trans (List.takeWhile_prefix _)
  refine ⟨r, hr.symm, fun c t hct => ?_⟩
  · by_cases hlen : (l.takeWhile (!isspace ·)).length < wordSize - 1
    · have hword : word l = l.takeWhile (!isspace ·) := List.take_of_length_le hlen.le
      have hdrop : l.dropWhile (!isspace ·) = c :: t := by
        have happ := List.takeWhile_append_dropWhile (p := (!isspace ·)) (l := l)
        rw [← hword] at happ
        exact (List.append_cancel_left (happ.trans hr.symm)).trans hct
      have hne : l.dropWhile (!isspace ·) ≠ [] := by
        rw [hdrop]
        exact List.cons_ne_nil c t
      have hhead := List.head_dropWhile_not (!isspace ·) hne
      refine .inl ?_
      simpa [hdrop] using hhead
    · refine .inr ?_
      rw [word, List.length_take]
      omega

theorem isspace_of_mem_word {l : List UInt8} (h : c ∈ word l) : isspace c = false := by
  have hmem := List.mem_takeWhile_imp (List.mem_of_mem_take h)
  simpa using hmem

theorem length_word_lt (l : List UInt8) : (word l).length < wordSize := by
  have hle := List.length_take_le (wordSize - 1) (l.takeWhile (!isspace ·))
  have hpos : 0 < wordSize := by decide
  rw [word]
  omega

/-- Behind a zero byte, a word is not the matter of the line. -/
theorem cut_word_append (line garbage : List UInt8) :
    cut (word (line ++ 0 :: garbage)) = cut (word line) := by
  have htake : ∀ (l : List UInt8) n, cut (l.take n) = (cut l).take n := by
    intro l
    induction l with
    | nil => simp [cut]
    | cons c l ih =>
      rintro (_ | n)
      · simp [cut]
      · by_cases hc : c = 0
        · simp [cut, hc]
        · simpa [cut, hc] using ih n
  rw [word, word, htake, htake]
  refine congrArg (List.take _) ?_
  rw [cut, cut, List.takeWhile_takeWhile, List.takeWhile_takeWhile, List.takeWhile_append]
  split_ifs with h
  · rw [List.takeWhile_cons_of_neg (by simp), List.append_nil]
    exact ((List.takeWhile_prefix _).eq_of_length h).symm
  · rfl

/-- What stands behind a zero byte does not make a line go on elsewhere. -/
theorem drop_word_append (line garbage : List UInt8) :
    line.drop (word (line ++ 0 :: garbage)).length = afterMethod line := by
  rw [afterMethod, word, word, List.takeWhile_append]
  split_ifs with h
  · -- the line has no space
    have hline : line.takeWhile (!isspace ·) = line :=
      (List.takeWhile_prefix _).eq_of_length h
    rw [hline]
    simp only [List.length_take, List.length_append]
    by_cases hle : line.length ≤ wordSize - 1
    · rw [List.drop_of_length_le (by omega), List.drop_of_length_le (by omega)]
    · congr 1
      omega
  · rfl

/-- **The method** that is found is the one that the line names, whatever the arrays hold; the line
goes on behind it. -/
theorem readMethod_eq (hbuf : buf = line ++ 0 :: garbage) (hlen : wordSize ≤ buf.length)
    (hd : d.length = wordSize) : ∃ j method, readMethod buf d = pure (j, method) ∧
      method.length = wordSize ∧ IsStr method 0 (methodOf line) ∧ j < wordSize ∧
      line.drop j = afterMethod line := by
  have hlt := length_word_lt buf
  obtain ⟨r, hr, hend⟩ := word_append buf
  have hrlen := congrArg List.length hr
  rw [List.length_append] at hrlen
  obtain ⟨c, t, rfl⟩ := List.exists_cons_of_length_pos (l := r) (by omega)
  have hcopy : copyWord (fun _ => true) buf ([] ++ d) (List.length []) 0 = _ :=
    copyWord_eq hr (fun x hx => isspace_of_mem_word hx) (fun _ _ => rfl) (by simpa using hlt)
      (by omega) ((hend c t rfl).imp_right fun h => .inl (by simpa using h))
  refine ⟨(word buf).length, overwrite d (word buf), ?_,
    (length_overwrite (by omega)).trans hd, ?_, hlt, ?_⟩
  · have hset : setNth (word buf ++ d.drop (word buf).length) (word buf).length 0 =
        pure (overwrite d (word buf)) := setNth_drop (by omega)
    simp only [List.nil_append, Nat.zero_add, List.length_nil] at hcopy
    rw [readMethod, hcopy, pure_bind]
    dsimp only
    rw [hset, pure_bind]
  · rw [methodOf, ← cut_word_append line garbage, ← hbuf]
    exact isStr_overwrite d (word buf)
  · rw [hbuf, drop_word_append]

/-- **Spaces are skipped** in front of the next word. -/
theorem skipSpaces_eq (hbuf : buf = line ++ 0 :: garbage) (hj : j < buf.length) :
    ∃ k, skipSpaces buf line.length j = (pure k : Exec ℕ) ∧
      line.drop k = (line.drop j).dropWhile isspace ∧ k < buf.length := by
  induction hl : line.drop j generalizing j with
  | nil =>
    -- the line is over
    refine ⟨j, ?_, hl, hj⟩
    obtain ⟨c, t, hc⟩ := List.exists_cons_of_length_pos (l := buf.drop j) (by simpa using hj)
    rw [skipSpaces, nth_of_drop hc, pure_bind, if_neg]
    exact fun h => absurd h.2 (List.drop_eq_nil_iff.mp hl).not_gt
  | cons c l ih =>
    have hlt : j < line.length := by
      by_contra hge
      rw [List.drop_of_length_le (Nat.le_of_not_lt hge)] at hl
      cases hl
    have hdrop : buf.drop j = c :: (l ++ 0 :: garbage) := by
      rw [hbuf, List.drop_append_of_le_length hlt.le, hl]
      rfl
    have hnext : line.drop (j + 1) = l := by
      rw [← List.drop_drop, hl]
      rfl
    rw [skipSpaces, nth_of_drop hdrop, pure_bind]
    by_cases hc : isspace c
    · have hj' : j + 1 < buf.length := by
        rw [hbuf, List.length_append, List.length_cons]
        omega
      obtain ⟨k, hk, hrest, hklt⟩ := ih hj' hnext
      rw [if_pos ⟨hc, hlt⟩]
      exact ⟨k, hk, by rw [hrest, List.dropWhile_cons_of_pos hc], hklt⟩
    · rw [if_neg fun h => hc h.1]
      exact ⟨j, rfl, by rw [hl, List.dropWhile_cons_of_neg hc], hj⟩

/-- **The URL** that is found is the first word of what follows. -/
theorem readUrl_eq (hbuf : buf = line ++ 0 :: garbage) (hj : j < buf.length)
    (hd : d.length = wordSize) : ∃ url, readUrl buf d line.length j = pure url ∧
      url.length = wordSize ∧ IsStr url 0 (cut (word ((line.drop j).dropWhile isspace))) := by
  obtain ⟨k, hskip, hrest, hk⟩ := skipSpaces_eq hbuf hj
  have hlt := length_word_lt (line.drop k)
  obtain ⟨r, hr, hend⟩ := word_append (line.drop k)
  rw [← hrest]
  -- the byte behind the word
  obtain ⟨c, t, hdrop, hstop⟩ : ∃ c t, buf.drop k = word (line.drop k) ++ c :: t ∧
      (isspace c = true ∨ wordSize - 1 ≤ (word (line.drop k)).length ∨
        line.length ≤ k + (word (line.drop k)).length) := by
    rcases Nat.lt_or_ge line.length k with hover | hle
    · have hnil : line.drop k = [] := List.drop_of_length_le hover.le
      obtain ⟨c, t, hc⟩ := List.exists_cons_of_length_pos (l := buf.drop k) (by simpa using hk)
      rw [hnil]
      exact ⟨c, t, hc, .inr (.inr (hover.le.trans (Nat.le_add_right _ _)))⟩
    · have hdrop : buf.drop k = word (line.drop k) ++ (r ++ 0 :: garbage) := by
        rw [hbuf, List.drop_append_of_le_length hle, ← List.append_assoc, ← hr]
      cases r with
      | nil =>
        have hlen := congrArg List.length hr
        rw [List.append_nil, List.length_drop] at hlen
        exact ⟨0, garbage, hdrop, .inr (.inr (by omega))⟩
      | cons c r => exact ⟨c, r ++ 0 :: garbage, hdrop, (hend c r rfl).imp_right .inl⟩
  have hmore : ∀ m < (word (line.drop k)).length, decide (k + m < line.length) = true := by
    intro m hm
    have hlen := congrArg List.length hr
    rw [List.length_append, List.length_drop] at hlen
    exact decide_eq_true (by omega)
  have hcopy : copyWord (fun j => j < line.length) buf ([] ++ d) (List.length []) k = _ :=
    copyWord_eq hdrop (fun x hx => isspace_of_mem_word hx) hmore (by simpa using hlt) (by omega)
      (hstop.imp_right (Or.imp (by simp) (by simp)))
  simp only [List.nil_append, List.length_nil] at hcopy
  refine ⟨overwrite d (word (line.drop k)), ?_, (length_overwrite (by omega)).trans hd,
    isStr_overwrite d _⟩
  rw [readUrl, hskip, pure_bind, hcopy, pure_bind]
  exact setNth_drop (by omega)

/-! ### The query and the path -/

theorem findQuery_eq {u : List UInt8} {q : ℕ} (hu : IsStr d q u) :
    findQuery d q = (pure (q + (beforeQuery u).length) : Exec ℕ) := by
  induction u generalizing q with
  | nil =>
    rw [findQuery, hu.nth_eq, pure_bind, if_neg fun h => h.2 rfl]
    rfl
  | cons c u ih =>
    have hc : c ≠ 0 := fun hc => hu.1 (hc ▸ List.mem_cons_self)
    rw [findQuery, hu.nth_eq, pure_bind, List.headD_cons, beforeQuery]
    by_cases hq : c = questionMark
    · rw [if_neg fun h => h.1 hq, List.takeWhile_cons_of_neg (by simpa using hq)]
      rfl
    · rw [if_pos ⟨hq, hc⟩, ih hu.tail, List.takeWhile_cons_of_pos (by simpa using hq),
        List.length_cons, beforeQuery, Nat.add_right_comm, Nat.add_assoc]

/-- **The query is found** behind the first question mark, and the URL is cut there. -/
theorem splitQuery_eq {u : List UInt8} (hu : IsStr d 0 u) : ∃ url q,
    splitQuery d = pure (decide (questionMark ∈ u), url, q) ∧ url.length = d.length ∧
      IsStr url 0 (beforeQuery u) ∧ IsStr url q (queryOf u) := by
  have hfind := findQuery_eq hu
  have hsplit : beforeQuery u ++ u.dropWhile (· ≠ questionMark) = u :=
    List.takeWhile_append_dropWhile
  rw [Nat.zero_add] at hfind
  have hrest : IsStr d (beforeQuery u).length (u.dropWhile (· ≠ questionMark)) := by
    rw [← hsplit] at hu
    simpa using hu.append
  rw [splitQuery, hfind, pure_bind, hrest.nth_eq, pure_bind]
  cases hd : u.dropWhile (· ≠ questionMark) with
  | nil =>
    rw [hd] at hrest
    rw [hd, List.append_nil] at hsplit
    have hmem : questionMark ∉ u := fun hmem => by
      simpa using List.dropWhile_eq_nil_iff.mp hd _ hmem
    refine ⟨d, (beforeQuery u).length, ?_, rfl, hsplit.symm ▸ hu, ?_⟩
    · rw [List.headD_nil, if_neg (by decide), decide_eq_false hmem]
    · rwa [queryOf, hd]
  | cons c q =>
    have hc : c = questionMark := by
      have hne : u.dropWhile (· ≠ questionMark) ≠ [] := by
        rw [hd]
        exact List.cons_ne_nil c q
      have hhead := List.head_dropWhile_not (fun x => decide (x ≠ questionMark)) hne
      simp only [hd, List.head_cons] at hhead
      simpa using hhead
    subst hc
    rw [hd] at hsplit
    obtain ⟨hz, t, ht⟩ := hu
    rw [← hsplit] at hz ht
    obtain ⟨hbefore, hq⟩ := not_or.mp (mt List.mem_append.mpr hz)
    have hdata : d = beforeQuery u ++ questionMark :: (q ++ 0 :: t) := by
      rw [← List.drop_zero (l := d), ← ht]
      simp
    have hset : setNth d (beforeQuery u).length 0 = pure (beforeQuery u ++ 0 :: (q ++ 0 :: t)) := by
      rw [setNth_eq (by rw [hdata]; simp), hdata]
      simp
    refine ⟨beforeQuery u ++ 0 :: (q ++ 0 :: t), (beforeQuery u).length + 1, ?_, ?_, ?_, ?_⟩
    · rw [List.headD_cons, if_pos rfl, hset, pure_bind,
        decide_eq_true (hsplit ▸ List.mem_append_right _ List.mem_cons_self)]
    · rw [hdata]
      simp
    · exact ⟨hbefore, _, (List.append_assoc ..).trans rfl⟩
    · rw [queryOf, hd]
      refine ⟨fun h => hq (List.mem_cons_of_mem _ h), t, ?_⟩
      simp

/-- What is appended to a string. -/
theorem strcat_eq {u v : List UInt8} (hu : IsStr d 0 u) (hv : 0 ∉ v)
    (hlen : u.length + v.length < d.length) : ∃ path, strcat d v = pure path ∧
      path.length = d.length ∧ IsStr path 0 (u ++ v) := by
  refine ⟨_, ?_, length_putStr hlen, ?_⟩
  · rw [strcat, hu.str_eq, pure_bind, putStr_eq hlen]
  · obtain ⟨hz, t, ht⟩ := hu
    have htake : d.take u.length = u := by
      rw [← List.drop_zero (l := d), ← ht, List.append_assoc, List.take_left]
    rw [htake]
    refine ⟨fun h => (List.mem_append.mp h).elim hz hv, _, (List.append_assoc ..).trans rfl⟩

/-- **The path** of the document fits into its array. -/
theorem makePath_eq {u url : List UInt8} (hu : IsStr url 0 u) (hlen : u.length < wordSize)
    (hd : d.length = pathSize) : ∃ path, makePath d url = pure path ∧ path.length = pathSize ∧
      IsStr path 0 (documentOf u) := by
  have hsize : (ascii "htdocs" ++ u).length < d.length := by
    rw [List.length_append, hd]
    exact (Nat.add_lt_add_left hlen _).trans (by decide)
  have hz : 0 ∉ ascii "htdocs" ++ u := fun h =>
    (List.mem_append.mp h).elim (by decide) hu.1
  have hstr := isStr_overwrite d (ascii "htdocs" ++ u)
  rw [cut_eq_self hz] at hstr
  have hlast : (ascii "htdocs" ++ u).getLast? ≠ none := by
    rw [ne_eq, List.getLast?_eq_none_iff, List.append_eq_nil_iff]
    exact fun h => absurd h.1 (by decide)
  obtain ⟨c, hc⟩ := Option.ne_none_iff_exists'.mp hlast
  obtain ⟨w, hw⟩ := List.getLast?_eq_some_iff.mp hc
  have hlen' := (length_overwrite hsize).trans hd
  rw [makePath, hu.str_eq, pure_bind, putStr_front hsize, pure_bind, hstr.str_eq, pure_bind]
  have hget : nth (overwrite d (ascii "htdocs" ++ u)) ((ascii "htdocs" ++ u).length - 1) =
      pure c := by
    have happ := (hw ▸ hstr).append.nth_eq
    rw [hw, List.length_append]
    simpa using happ
  rw [hget, pure_bind, documentOf, hc]
  by_cases hslash : c = slash
  · rw [if_pos hslash, if_pos (congrArg some hslash)]
    have hroom : (ascii "htdocs" ++ u).length + (ascii "index.html").length <
        (overwrite d (ascii "htdocs" ++ u)).length := by
      rw [hlen', List.length_append]
      have hnum : (ascii "htdocs").length + wordSize + (ascii "index.html").length < pathSize := by
        decide
      omega
    obtain ⟨path, hpath, hplen, hstr'⟩ := strcat_eq hstr (by decide) hroom
    exact ⟨path, hpath, hplen.trans hlen', hstr'⟩
  · rw [if_neg hslash, if_neg fun h => hslash (Option.some.inj h)]
    exact ⟨_, rfl, hlen', hstr⟩

end Httpd

end Candcpp
