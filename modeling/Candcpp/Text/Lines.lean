import Mathlib

/-!
# Streams read line by line

A stream of symbols, in which `lf` ends a line, is cut into pieces: lines with their ends, and the
first `n` symbols of a line that is longer (`Candcpp.Lines.next`). `Candcpp.Lines.Cut` says how a
stream is cut, and there is one way to do it (`Candcpp.Lines.Cut.unique`).

Where a line may end with `cr`, with `lf`, or with the two of them in this order, the unified stream
(`Candcpp.Lines.unify`) has one `lf` for every line end. A reader that takes such a stream as it
stands (`Candcpp.Lines.read`) takes the pieces of the unified one (`Candcpp.Lines.cut_reads`).

A reader that looks for an empty line this way, piece by piece, takes more for empty than the
empty lines: any line whose length is a multiple of `n` leaves a piece with nothing but its end.
`Candcpp.Lines.afterBlank` is what follows the first of them.
-/

namespace Candcpp

namespace Lines

/-! ### Streams cut into pieces -/

section Cutting

variable {α : Type} {lf : α} {n : ℕ}

/-- **A stream cut into lines**, of at most `n` symbols each, and a rest: a line end stands at the
end of a piece only, and what has none is a full piece or the last one. -/
structure Cut (lf : α) (n : ℕ) (stream : List α) (lines : List (List α)) (rest : List α) : Prop where
  flatten : lines.flatten ++ rest = stream
  length_le : ∀ line ∈ lines, line.length ≤ n
  lf_notMem : ∀ line ∈ lines, lf ∉ line.dropLast
  short : ∀ pre line post, lines = pre ++ line :: post → lf ∉ line → line.length < n →
    post.flatten ++ rest = []

/-- The pieces behind the first one are those of what follows it. -/
theorem Cut.tail {stream line rest : List α} {lines : List (List α)}
    (h : Cut lf n (line ++ stream) (line :: lines) rest) : Cut lf n stream lines rest where
  flatten := by
    have hflat := h.flatten
    rwa [List.flatten_cons, List.append_assoc, List.append_cancel_left_eq] at hflat
  length_le := fun _ hmem => h.length_le _ (List.mem_cons_of_mem line hmem)
  lf_notMem := fun _ hmem => h.lf_notMem _ (List.mem_cons_of_mem line hmem)
  short := fun pre _ _ heq => h.short (line :: pre) _ _ (congrArg (line :: ·) heq)

/-- Of two first pieces of a stream neither is longer than the other. -/
theorem Cut.length_head_le {stream line line' rest rest' : List α} {lines lines' : List (List α)}
    (h : Cut lf n stream (line :: lines) rest) (h' : Cut lf n stream (line' :: lines') rest') :
    line'.length ≤ line.length := by
  by_contra hlt
  have hpre : line <+: line' := List.prefix_of_prefix_length_le
    ⟨_, (List.append_assoc ..).symm.trans h.flatten⟩
    ⟨_, (List.append_assoc ..).symm.trans h'.flatten⟩ (Nat.le_of_not_le hlt)
  obtain ⟨q, rfl⟩ := hpre
  have hq : q ≠ [] := by
    rintro rfl
    exact hlt (by rw [List.append_nil])
  -- the shorter piece has no line end, and is not full
  have hmem : lf ∉ line := fun hmem => by
    refine h'.lf_notMem _ List.mem_cons_self ?_
    rw [List.dropLast_append_of_ne_nil hq]
    exact List.mem_append_left _ hmem
  have hle := h'.length_le _ List.mem_cons_self
  have hrest := h.short [] line lines rfl hmem (by omega)
  have hflat := h.flatten.trans h'.flatten.symm
  rw [List.flatten_cons, List.flatten_cons, List.append_assoc, hrest, List.append_assoc,
    List.append_assoc, List.append_cancel_left_eq] at hflat
  exact hq (List.append_eq_nil_iff.mp hflat.symm).1

/-- **There is one way to cut a stream** into so many pieces. -/
theorem Cut.unique {stream rest rest' : List α} {lines lines' : List (List α)}
    (h : Cut lf n stream lines rest) (h' : Cut lf n stream lines' rest')
    (hlen : lines.length = lines'.length) : lines = lines' ∧ rest = rest' := by
  induction lines generalizing stream lines' with
  | nil =>
    obtain rfl := List.length_eq_zero_iff.mp hlen.symm
    exact ⟨rfl, h.flatten.trans h'.flatten.symm⟩
  | cons line lines ih =>
    obtain ⟨line', lines', rfl⟩ := List.exists_cons_of_length_pos
      ((Nat.succ_pos _).trans_eq hlen)
    have hflat := h.flatten.trans h'.flatten.symm
    rw [List.flatten_cons, List.flatten_cons, List.append_assoc, List.append_assoc] at hflat
    obtain ⟨rfl, -⟩ := List.append_inj hflat
      (Nat.le_antisymm (h'.length_head_le h) (h.length_head_le h'))
    obtain ⟨stream, rfl⟩ : ∃ t, stream = line ++ t :=
      ⟨_, h.flatten.symm.trans (List.append_assoc ..)⟩
    obtain ⟨rfl, hrest⟩ := ih h.tail h'.tail (Nat.succ_injective hlen)
    exact ⟨rfl, hrest⟩

end Cutting

variable {α : Type} [DecidableEq α]

/-! ### One line after the other -/

section Reading

/-- **The next line** of a stream, its end included, or its first `n` symbols where it is longer;
and what follows. -/
def next (lf : α) : ℕ → List α → List α × List α
  | 0, l => ([], l)
  | _ + 1, [] => ([], [])
  | n + 1, a :: l => if a = lf then ([lf], l) else (a :: (next lf n l).1, (next lf n l).2)

variable (cr lf : α)

/-- A stream without the `lf` at its front, if there is one. -/
def skip : List α → List α
  | [] => []
  | b :: l => if b = lf then l else b :: l

/-- The stream with its line ends made equal, from a place on that may follow a `cr`. -/
def unifyFrom : Bool → List α → List α
  | _, [] => []
  | afterCr, a :: l =>
    if a = cr then lf :: unifyFrom true l
    else if afterCr ∧ a = lf then unifyFrom false l
    else a :: unifyFrom false l

/-- **The unified stream**: every line end is one `lf`. -/
def unify (l : List α) : List α := unifyFrom cr lf false l

/-- The next line of a stream in which lines end with `cr`, `lf` or both. -/
def read : ℕ → List α → List α × List α
  | 0, l => ([], l)
  | _ + 1, [] => ([], [])
  | n + 1, a :: l =>
    if a = cr then ([lf], skip lf l)
    else if a = lf then ([lf], l)
    else (a :: (read n l).1, (read n l).2)

/-- The first `k` pieces that are read, and the stream that follows. -/
def reads (n : ℕ) : ℕ → List α → List (List α) × List α
  | 0, l => ([], l)
  | k + 1, l =>
    ((read cr lf n l).1 :: (reads n k (read cr lf n l).2).1, (reads n k (read cr lf n l).2).2)

/-- What follows the first line whose length is a multiple of `n`, where `k` symbols of the line
at hand have gone before. -/
def afterBlank (n : ℕ) : ℕ → List α → List α
  | _, [] => []
  | k, a :: l =>
    if a = lf then if n ∣ k then l else afterBlank n 0 l
    else afterBlank n (k + 1) l

end Reading

variable {cr lf : α} {n k : ℕ} {l : List α}

/-! ### The next line -/

/-- **The next line and what follows** make up the stream. -/
theorem next_append (lf : α) (n : ℕ) (l : List α) : (next lf n l).1 ++ (next lf n l).2 = l := by
  induction n generalizing l with
  | zero => rfl
  | succ n ih =>
    cases l with
    | nil => rfl
    | cons a l =>
      rw [next]
      split_ifs with hlf
      · rw [hlf, List.singleton_append]
      · rw [List.cons_append, ih]

theorem length_next_le (lf : α) (n : ℕ) (l : List α) : (next lf n l).1.length ≤ n := by
  induction n generalizing l with
  | zero => exact le_rfl
  | succ n ih =>
    cases l with
    | nil => exact Nat.zero_le _
    | cons a l =>
      rw [next]
      split_ifs
      · exact Nat.le_add_left 1 n
      · exact Nat.succ_le_succ (ih l)

/-- How the next piece ends: with the only line end in it, or without one and then it is a full
piece or nothing follows. -/
theorem next_shape (lf : α) (n : ℕ) (l : List α) :
    (∃ p, (next lf n l).1 = p ++ [lf] ∧ lf ∉ p ∧ p.length < n) ∨
      lf ∉ (next lf n l).1 ∧ ((next lf n l).1.length = n ∨ (next lf n l).2 = []) := by
  induction n generalizing l with
  | zero => exact .inr ⟨List.not_mem_nil, .inl rfl⟩
  | succ n ih =>
    cases l with
    | nil => exact .inr ⟨List.not_mem_nil, .inr rfl⟩
    | cons a l =>
      rw [next]
      split_ifs with hlf
      · exact .inl ⟨[], rfl, List.not_mem_nil, Nat.succ_pos n⟩
      · have hcons : ∀ {p : List α}, lf ∉ p → lf ∉ a :: p := fun hp h =>
          (List.mem_cons.mp h).elim (fun h => hlf h.symm) hp
        rcases ih l with ⟨p, hp, hmem, hlen⟩ | ⟨hmem, hlen | hrest⟩
        · exact .inl ⟨a :: p, congrArg (a :: ·) hp, hcons hmem, Nat.succ_lt_succ hlen⟩
        · exact .inr ⟨hcons hmem, .inl (congrArg (· + 1) hlen)⟩
        · exact .inr ⟨hcons hmem, .inr hrest⟩

/-- A piece is empty at the end of the stream only. -/
theorem next_eq_nil (hn : 0 < n) : (next lf n l).1 = [] ↔ l = [] := by
  obtain ⟨n, rfl⟩ := Nat.exists_eq_succ_of_ne_zero hn.ne'
  cases l with
  | nil => exact iff_of_true rfl rfl
  | cons a l =>
    refine iff_of_false (fun h => ?_) (List.cons_ne_nil a l)
    rw [next] at h
    split_ifs at h

/-- A piece that is neither a line with its end nor a full one is all that there is. -/
theorem eq_next_of_not (h : ¬ ((next lf n l).1.getLast? = some lf ∨ (next lf n l).1.length = n)) :
    lf ∉ l ∧ l.length < n := by
  obtain ⟨hlast, hfull⟩ := not_or.mp h
  have hle := length_next_le lf n l
  rcases next_shape lf n l with ⟨p, hp, -⟩ | ⟨hmem, hlen⟩
  · exact absurd (by rw [hp, List.getLast?_concat]) hlast
  · have heq := next_append lf n l
    rw [hlen.resolve_left hfull, List.append_nil] at heq
    rw [heq] at hmem hfull hle
    exact ⟨hmem, by omega⟩

/-- Each piece takes something off the stream. -/
theorem length_next_snd_lt (hn : 0 < n) (hl : l ≠ []) : (next lf n l).2.length < l.length := by
  have hlen := congrArg List.length (next_append lf n l)
  have hne : (next lf n l).1 ≠ [] := mt (next_eq_nil hn).mp hl
  have hpos := List.length_pos_iff.mpr hne
  rw [List.length_append] at hlen
  omega

/-! ### The unified stream -/

@[simp] theorem unify_nil : unify cr lf [] = [] := rfl

theorem unify_cons_cr : unify cr lf (cr :: l) = lf :: unifyFrom cr lf true l := by
  rw [unify, unifyFrom, if_pos rfl]

theorem unify_cons {a : α} (ha : a ≠ cr) : unify cr lf (a :: l) = a :: unify cr lf l := by
  rw [unify, unifyFrom, if_neg ha, if_neg (fun h => absurd h.1 Bool.false_ne_true), unify]

theorem unify_eq_nil : unify cr lf l = [] ↔ l = [] := by
  cases l with
  | nil => exact iff_of_true rfl rfl
  | cons a l =>
    refine iff_of_false (fun h => ?_) (List.cons_ne_nil a l)
    by_cases ha : a = cr
    · rw [ha, unify_cons_cr] at h
      cases h
    · rw [unify_cons ha] at h
      cases h

/-- After a `cr`, the `lf` that belongs to it is skipped. -/
theorem unifyFrom_true (hne : lf ≠ cr) : unifyFrom cr lf true l = unify cr lf (skip lf l) := by
  cases l with
  | nil => rfl
  | cons a l =>
    rw [skip]
    by_cases hlf : a = lf
    · subst hlf
      rw [unifyFrom, if_neg hne, if_pos ⟨rfl, rfl⟩, if_pos rfl, unify]
    · rw [if_neg hlf]
      by_cases hcr : a = cr
      · subst hcr
        rw [unifyFrom, if_pos rfl, unify_cons_cr]
      · rw [unifyFrom, if_neg hcr, if_neg (fun h => hlf h.2), unify_cons hcr, unify]

/-- A stream that has only `lf` for its line ends is unified already. -/
theorem unify_eq_self (h : cr ∉ l) : unify cr lf l = l := by
  induction l with
  | nil => rfl
  | cons a l ih =>
    obtain ⟨ha, hl⟩ := not_or.mp (mt List.mem_cons.mpr h)
    rw [unify_cons (Ne.symm ha), ih hl]

/-- **What is read** is the next line of the unified stream. -/
theorem read_eq (hne : lf ≠ cr) (n : ℕ) (l : List α) :
    (read cr lf n l).1 = (next lf n (unify cr lf l)).1 ∧
      unify cr lf (read cr lf n l).2 = (next lf n (unify cr lf l)).2 := by
  induction n generalizing l with
  | zero => exact ⟨rfl, rfl⟩
  | succ n ih =>
    cases l with
    | nil => exact ⟨rfl, rfl⟩
    | cons a l =>
      by_cases hcr : a = cr
      · subst hcr
        simp only [read, unify_cons_cr, unifyFrom_true hne, next, if_true, and_self]
      · obtain ⟨hline, hrest⟩ := ih l
        rw [unify_cons hcr, read, next, if_neg hcr]
        split_ifs with hlf
        · exact ⟨rfl, rfl⟩
        · exact ⟨congrArg (a :: ·) hline, hrest⟩

/-- **A line is read** that fits, whether it ends with `lf` or with `cr` and `lf`. -/
theorem read_line {line eol rest : List α} (hcr : cr ∉ line) (hlf : lf ∉ line) (hne : lf ≠ cr)
    (heol : eol = [lf] ∨ eol = [cr, lf]) (hlen : line.length < n) :
    read cr lf n (line ++ eol ++ rest) = (line ++ [lf], rest) := by
  induction line generalizing n with
  | nil =>
    obtain ⟨n, rfl⟩ := Nat.exists_eq_succ_of_ne_zero hlen.ne'
    rcases heol with rfl | rfl
    · simp [read, hne]
    · simp [read, skip]
  | cons a line ih =>
    obtain ⟨n, rfl⟩ := Nat.exists_eq_succ_of_ne_zero (Nat.zero_lt_of_lt hlen).ne'
    obtain ⟨hacr, hcr⟩ := not_or.mp (mt List.mem_cons.mpr hcr)
    obtain ⟨half, hlf⟩ := not_or.mp (mt List.mem_cons.mpr hlf)
    rw [List.cons_append, List.cons_append, read, if_neg (Ne.symm hacr), if_neg (Ne.symm half),
      ih hcr hlf (Nat.lt_of_succ_lt_succ hlen), List.cons_append]

/-! ### What the pieces are -/

/-- The next line and the pieces into which what follows is cut. -/
theorem Cut.cons {lines : List (List α)} {rest : List α}
    (h : Cut lf n (next lf n l).2 lines rest) : Cut lf n l ((next lf n l).1 :: lines) rest where
  flatten := by
    rw [List.flatten_cons, List.append_assoc, h.flatten, next_append]
  length_le := List.forall_mem_cons.mpr ⟨length_next_le lf n l, h.length_le⟩
  lf_notMem := by
    refine List.forall_mem_cons.mpr ⟨?_, h.lf_notMem⟩
    rcases next_shape lf n l with ⟨p, hp, hmem, -⟩ | ⟨hmem, -⟩
    · rwa [hp, List.dropLast_concat]
    · exact fun h => hmem (List.mem_of_mem_dropLast h)
  short := by
    rintro (_ | ⟨line', pre⟩) line post heq hmem hlt
    · obtain ⟨rfl, rfl⟩ := List.cons.inj heq
      rw [h.flatten]
      rcases next_shape lf n l with ⟨p, hp, -, -⟩ | ⟨-, hlen | hnil⟩
      · exact absurd (by rw [hp]; simp) hmem
      · exact absurd hlen hlt.ne
      · exact hnil
    · exact h.short pre line post (List.cons.inj heq).2 hmem hlt

/-- **The pieces that are read** are those into which the unified stream is cut. -/
theorem cut_reads (hne : lf ≠ cr) (n k : ℕ) (l : List α) :
    Cut lf n (unify cr lf l) (reads cr lf n k l).1 (unify cr lf (reads cr lf n k l).2) := by
  induction k generalizing l with
  | zero => exact ⟨rfl, nofun, nofun, fun pre _ _ heq => absurd heq (by simp [reads])⟩
  | succ k ih =>
    have hcut := ih (read cr lf n l).2
    obtain ⟨hline, hrest⟩ := read_eq hne n l
    rw [hrest] at hcut
    rw [reads, hline]
    exact hcut.cons

theorem length_reads (n k : ℕ) (l : List α) : (reads cr lf n k l).1.length = k := by
  induction k generalizing l with
  | zero => rfl
  | succ k ih => rw [reads, List.length_cons, ih]

/-! ### The unfinished line -/

/-- The line at the end of a stream that has no end yet. -/
def unfinished (lf : α) (l : List α) : List α := l.rtakeWhile (· ≠ lf)

theorem unfinished_eq_self (h : lf ∉ l) : unfinished lf l = l := by
  rw [unfinished, List.rtakeWhile_eq_self_iff]
  intro a ha
  exact decide_eq_true fun hlf => h (hlf ▸ ha)

/-- In front of an unfinished line, lines and pieces of `n` symbols may be left out. -/
theorem length_unfinished_append {line : List α}
    (h : line.getLast? = some lf ∨ lf ∉ line ∧ line.length = n) (l : List α) :
    (unfinished lf (line ++ l)).length % n = (unfinished lf l).length % n := by
  induction l using List.reverseRecOn with
  | nil =>
    rcases h with h | ⟨h, rfl⟩
    · obtain ⟨p, rfl⟩ := List.getLast?_eq_some_iff.mp h
      rw [List.append_nil, unfinished, List.rtakeWhile_concat_neg _ _ _ (by simp)]
      rfl
    · rw [List.append_nil, unfinished_eq_self h, Nat.mod_self]
      exact (Nat.zero_mod _).symm
  | append_singleton l a ih =>
    rw [← List.append_assoc, unfinished, unfinished, List.rtakeWhile_concat, List.rtakeWhile_concat]
    split_ifs
    · rw [List.length_append, List.length_append, Nat.add_mod, Nat.add_mod (List.length _)]
      exact congrArg (fun m => (m + _) % n) ih
    · rfl

/-- **The rest of a stream** that is cut into lines with their ends and full pieces is what its
unfinished line has beyond a multiple of `n` symbols. -/
theorem Cut.length_rest {stream rest : List α} {lines : List (List α)}
    (h : Cut lf n stream lines rest) (hfull : ∀ line ∈ lines, line.getLast? = some lf ∨
      line.length = n) (hmem : lf ∉ rest) (hlt : rest.length < n) :
    rest.length = (unfinished lf stream).length % n := by
  have hflat := h.flatten
  subst hflat
  induction lines with
  | nil => rw [List.flatten_nil, List.nil_append, unfinished_eq_self hmem, Nat.mod_eq_of_lt hlt]
  | cons line lines ih =>
    obtain ⟨hline, hlines⟩ := List.forall_mem_cons.mp hfull
    have hends : line.getLast? = some lf ∨ lf ∉ line ∧ line.length = n := by
      refine or_iff_not_imp_left.mpr fun hlast => ⟨fun hin => ?_, hline.resolve_left hlast⟩
      obtain ⟨p, a, rfl⟩ := List.eq_nil_or_concat' line |>.resolve_left (List.ne_nil_of_mem hin)
      have hp := h.lf_notMem _ List.mem_cons_self
      rw [List.dropLast_concat] at hp
      rcases List.mem_append.mp hin with hin | hin
      · exact hp hin
      · exact hlast (by rw [List.getLast?_concat, List.mem_singleton.mp hin])
    rw [List.flatten_cons, List.append_assoc] at h ⊢
    rw [length_unfinished_append hends]
    exact ih hlines h.tail

/-! ### The line taken for empty -/

@[simp] theorem afterBlank_nil : afterBlank lf n k [] = [] := rfl

theorem afterBlank_append {p r : List α} (hp : lf ∉ p) :
    afterBlank lf n k (p ++ r) = afterBlank lf n (k + p.length) r := by
  induction p generalizing k with
  | nil => rfl
  | cons a p ih =>
    obtain ⟨ha, hp⟩ := not_or.mp (mt List.mem_cons.mpr hp)
    rw [List.cons_append, afterBlank, if_neg (Ne.symm ha), ih hp, List.length_cons]
    congr 1
    omega

/-- A full piece more or less in front does not matter. -/
theorem afterBlank_add_self : afterBlank lf n (k + n) l = afterBlank lf n k l := by
  induction l generalizing k with
  | nil => rfl
  | cons a l ih =>
    simp only [afterBlank, Nat.dvd_add_self_right, show k + n + 1 = k + 1 + n by omega, ih]

/-- A line end in front of which `n` does not divide the length ends a line and no more. -/
theorem afterBlank_cons_lf : afterBlank lf n k (lf :: l) = if n ∣ k then l else
    afterBlank lf n 0 l := by
  rw [afterBlank, if_pos rfl]

/-- **A piece that is not just a line end** changes nothing about what follows the line taken for
empty. -/
theorem afterBlank_next (h : (next lf n l).1 ≠ [lf]) :
    afterBlank lf n 0 l = afterBlank lf n 0 (next lf n l).2 := by
  conv_lhs => rw [← next_append lf n l]
  rcases next_shape lf n l with ⟨p, hp, hmem, hlt⟩ | ⟨hmem, hlen | hrest⟩
  · have hpos : 0 < p.length := by
      refine List.length_pos_iff.mpr fun hnil => h ?_
      rw [hp, hnil, List.nil_append]
    rw [hp, List.append_assoc, afterBlank_append hmem, List.singleton_append, afterBlank_cons_lf,
      Nat.zero_add, if_neg (Nat.not_dvd_of_pos_of_lt hpos hlt)]
  · rw [afterBlank_append hmem, hlen, afterBlank_add_self]
  · rw [afterBlank_append hmem, hrest, afterBlank_nil, afterBlank_nil]

/-- A piece that is just a line end is the line taken for empty. -/
theorem afterBlank_next_lf (h : (next lf n l).1 = [lf]) :
    afterBlank lf n 0 l = (next lf n l).2 := by
  conv_lhs => rw [← next_append lf n l, h, List.singleton_append, afterBlank_cons_lf,
    if_pos (dvd_zero n)]

/-- **Behind a block of lines**, none of which has a length that `n` divides, and an empty line
comes what follows it. -/
theorem afterBlank_block {hs : List (List α)} {body : List α}
    (h : ∀ line ∈ hs, lf ∉ line ∧ ¬ n ∣ line.length) :
    afterBlank lf n 0 ((hs.map (· ++ [lf])).flatten ++ lf :: body) = body := by
  induction hs with
  | nil => exact afterBlank_cons_lf.trans (if_pos (dvd_zero n))
  | cons line hs ih =>
    obtain ⟨⟨hmem, hdvd⟩, hrest⟩ := List.forall_mem_cons.mp h
    rw [List.map_cons, List.flatten_cons, List.append_assoc, List.append_assoc,
      afterBlank_append hmem, List.singleton_append, afterBlank_cons_lf, Nat.zero_add,
      if_neg hdvd, ih hrest]

end Lines

end Candcpp
