import Candcpp.Algorithm.DecodeString

/-!
# On which strings the decoders return

The decoders of `Candcpp.DecodeString` on any string, be it well formed or not. Neither of them
checks its input. `func_recursion` does not pass a character that is neither a letter nor a digit
nor `']'`, and so never returns; `func` pops an empty stack at a `']'` with no `'['` or no number
before it. Both read a number up to the next `'['`, whatever stands there, and its value may be no
`int`, or a negative one, by which nothing can be repeated.

What is left is said by two scanners of the text, which compute nothing but the numbers in it:
`Candcpp.DecodeString.Passes` for `func_recursion` and `Candcpp.DecodeString.Matched` for `func`.
**The decoders return exactly on the texts that the scanners accept**
(`Candcpp.DecodeString.returns_iff`). That `func_recursion` does not return on other texts is an
induction on its calls, since a call that repeats itself satisfies every equation.
-/

namespace Candcpp

namespace DecodeString

open Cpp

/-! ### The scanners -/

/-- The number that is read from a text on, and the text behind it: `'['`, or nothing. There is
none if it is not an `int`. -/
def readNumber : ℤ → Text → Option (ℤ × Text)
  | k, [] => some (k, [])
  | k, c :: l =>
    if c ≠ opening then (addDigit k c).returned.bind fun k => readNumber k l
    else some (k, c :: l)

/-- **The texts that `func_recursion` passes**, with `d` brackets open: letters, numbers that are
not negative, each of which opens a bracket, and closing brackets, up to the end or to a closing
bracket without an open one. -/
inductive Passes : ℕ → Text → Prop
  | done (d : ℕ) : Passes d []
  | letter {d : ℕ} {c : Byte} {l : Text} (hc : isalpha c) (h : Passes d l) : Passes d (c :: l)
  | number {d : ℕ} {c : Byte} {l m : Text} {k : ℤ} (hc : isdigit c)
      (hn : readNumber 0 (c :: l) = some (k, m)) (hk : 0 ≤ k) (h : Passes (d + 1) m.tail) :
      Passes d (c :: l)
  | stop (l : Text) : Passes 0 (closing :: l)
  | close {d : ℕ} {l : Text} (h : Passes d l) : Passes (d + 1) (closing :: l)

/-- **The texts in which `func` finds what it pops**, with `d` brackets open and the numbers `ks`
not yet used: for each closing bracket there is an open one, and a number that is not negative. -/
inductive Matched : ℕ → List ℤ → Text → Prop
  | done (d : ℕ) (ks : List ℤ) : Matched d ks []
  | number {d : ℕ} {ks : List ℤ} {c : Byte} {l m : Text} {k : ℤ} (hc : isdigit c)
      (hn : readNumber 0 (c :: l) = some (k, m)) (h : Matched d (k :: ks) m) :
      Matched d ks (c :: l)
  | opening {d : ℕ} {ks : List ℤ} {l : Text} (h : Matched (d + 1) ks l) :
      Matched d ks (opening :: l)
  | closing {d : ℕ} {ks : List ℤ} {k : ℤ} {l : Text} (hk : 0 ≤ k) (h : Matched d ks l) :
      Matched (d + 1) (k :: ks) (closing :: l)
  | other {d : ℕ} {ks : List ℤ} {c : Byte} {l : Text} (hd : ¬ isdigit c) (ho : c ≠ opening)
      (hc : c ≠ closing) (h : Matched d ks l) : Matched d ks (c :: l)

variable {s l m : Text} {c : Byte} {i j d : ℕ} {k k' : ℤ} {ks nums : List ℤ} {chars : List Byte}
  {ans : Text}

/-! ### Numbers -/

theorem readNumber_cons (hc : c ≠ opening) :
    readNumber k (c :: l) = (addDigit k c).returned.bind fun k => readNumber k l := if_pos hc

theorem readNumber_opening : readNumber k (opening :: l) = some (k, opening :: l) :=
  if_neg (not_not.mpr rfl)

theorem length_le_of_readNumber (h : readNumber k l = some (k', m)) : m.length ≤ l.length := by
  induction l generalizing k with
  | nil =>
    obtain ⟨-, rfl⟩ := Prod.mk.inj (Option.some.inj h)
    exact le_rfl
  | cons c l ih =>
    by_cases hc : c = opening
    · subst hc
      obtain ⟨-, rfl⟩ := Prod.mk.inj (Option.some.inj (readNumber_opening.symm.trans h))
      exact le_rfl
    · rw [readNumber_cons hc] at h
      obtain ⟨k₁, -, h⟩ := Option.bind_eq_some_iff.mp h
      exact (ih h).trans (Nat.le_succ _)

/-- A number that begins with a digit is not empty. -/
theorem length_lt_of_readNumber (hc : isdigit c) (h : readNumber k (c :: l) = some (k', m)) :
    m.length < (c :: l).length := by
  rw [readNumber_cons (ne_opening_of_isdigit hc)] at h
  obtain ⟨k₁, -, h⟩ := Option.bind_eq_some_iff.mp h
  exact Nat.lt_succ_of_le (length_le_of_readNumber h)

theorem addDigit_range (h : addDigit k c = pure k') : intMin ≤ k' ∧ k' ≤ intMax := by
  obtain ⟨t, -, h⟩ := Exec.bind_eq_pure.mp h
  obtain ⟨hrange, rfl⟩ := int_eq_pure.mp h
  exact hrange

/-- A number is an `int`. -/
theorem readNumber_range (hk : intMin ≤ k ∧ k ≤ intMax) (h : readNumber k l = some (k', m)) :
    intMin ≤ k' ∧ k' ≤ intMax := by
  induction l generalizing k with
  | nil =>
    obtain ⟨rfl, -⟩ := Prod.mk.inj (Option.some.inj h)
    exact hk
  | cons c l ih =>
    by_cases hc : c = opening
    · subst hc
      obtain ⟨rfl, -⟩ := Prod.mk.inj (Option.some.inj (readNumber_opening.symm.trans h))
      exact hk
    · rw [readNumber_cons hc] at h
      obtain ⟨k₁, hk₁, h⟩ := Option.bind_eq_some_iff.mp h
      exact ih (addDigit_range (Exec.eq_pure_of_returned hk₁)) h

/-- **The loop finds the number that is read.** -/
theorem numberLoop_of_readNumber (hs : s.drop i = l) (h : readNumber k l = some (k', m)) :
    ∃ j, numberLoop s i k = pure (j, k') ∧ s.drop j = m := by
  induction l generalizing i k with
  | nil =>
    obtain ⟨rfl, rfl⟩ := Prod.mk.inj (Option.some.inj h)
    exact ⟨i, numberLoop_end hs, hs⟩
  | cons c l ih =>
    by_cases hc : c = opening
    · subst hc
      obtain ⟨rfl, rfl⟩ := Prod.mk.inj (Option.some.inj (readNumber_opening.symm.trans h))
      exact ⟨i, numberLoop_opening hs, hs⟩
    · rw [readNumber_cons hc] at h
      obtain ⟨k₁, hk₁, h⟩ := Option.bind_eq_some_iff.mp h
      obtain ⟨j, hj, hm⟩ := ih (getElem_of_drop hs).2.2 h
      refine ⟨j, ?_, hm⟩
      rw [numberLoop_digit hs hc, Exec.eq_pure_of_returned hk₁, pure_bind, hj]

/-- **What the loop finds is the number that is read.** -/
theorem readNumber_of_numberLoop (hs : s.drop i = l) (h : numberLoop s i k = pure (j, k')) :
    readNumber k l = some (k', s.drop j) := by
  induction l generalizing i k with
  | nil =>
    obtain ⟨rfl, rfl⟩ := Prod.mk.inj (Exec.pure_inj.mp ((numberLoop_end hs).symm.trans h))
    rw [hs]
    rfl
  | cons c l ih =>
    by_cases hc : c = opening
    · subst hc
      obtain ⟨rfl, rfl⟩ := Prod.mk.inj (Exec.pure_inj.mp ((numberLoop_opening hs).symm.trans h))
      rw [hs, readNumber_opening]
    · rw [numberLoop_digit hs hc] at h
      obtain ⟨k₁, hk₁, h⟩ := Exec.bind_eq_pure.mp h
      rw [readNumber_cons hc, hk₁, Exec.returned_pure, Option.bind_some]
      exact ih (getElem_of_drop hs).2.2 h

/-- A text is repeated by an `int` exactly if that is not negative. -/
theorem repeatLoop_returns (hk : intMin ≤ k ∧ k ≤ intMax) (t ans : Text) :
    (∃ r, repeatLoop k t ans = pure r) ↔ 0 ≤ k := by
  constructor
  · rintro ⟨r, hr⟩
    by_contra hneg
    rw [repeatLoop_neg (not_le.mp hneg) hk.1] at hr
    exact Exec.pure_ne_throw _ _ hr.symm
  · intro hpos
    obtain ⟨n, rfl⟩ := Int.eq_ofNat_of_zero_le hpos
    exact ⟨_, repeatLoop_eq hk.2 t ans⟩

theorem zero_range : intMin ≤ 0 ∧ (0 : ℤ) ≤ intMax := by decide

/-! ### The recursive decoder -/

/-- **Where `func_recursion` returns, it has passed the text**: it is started inside `d` brackets,
and what is behind the place where it ends is passed inside one less. -/
theorem passes_of_returns (s : Text) (pos : ℕ) (ans : Text) (q : Except Fault (Text × ℕ))
    (hq : funcRecursionLoop s pos ans = some q) : ∀ r, q = .ok r → ∀ d,
      (∀ d', d = d' + 1 → Passes d' (s.drop r.2)) → Passes d (s.drop pos) := by
  refine funcRecursionLoop.partial_correctness s (fun pos _ q => ∀ r, q = .ok r → ∀ d,
    (∀ d', d = d' + 1 → Passes d' (s.drop r.2)) → Passes d (s.drop pos)) ?_ pos ans q hq
  clear hq q ans pos
  rintro f ih pos ans - hq r rfl d hd
  cases hl : s.drop pos with
  | nil => exact .done d
  | cons c l =>
    obtain ⟨hi, hc, hdrop⟩ := getElem_of_drop hl
    simp only [dif_pos hi, hc] at hq
    split_ifs at hq with halpha hdigit hclosing
    · have hrest := ih _ _ _ hq r rfl d hd
      exact .letter halpha (hdrop ▸ hrest)
    · obtain ⟨⟨j, k⟩, hnum, hq⟩ := Exec.bind_eq_pure.mp (hq : _ = (pure r : Exec _))
      obtain ⟨p, hinner, hq⟩ := Exec.bind_eq_pure.mp hq
      obtain ⟨ans', hrepeat, hq⟩ := Exec.bind_eq_pure.mp hq
      have hread := readNumber_of_numberLoop hl hnum
      have hk := (repeatLoop_returns (readNumber_range zero_range hread) p.1 _).mp ⟨ans', hrepeat⟩
      refine .number hdigit hread hk ?_
      rw [List.tail_drop]
      exact ih _ _ _ hinner p rfl (d + 1) fun d' hd' => by
        obtain rfl : d = d' := Nat.succ.inj hd'
        exact ih _ _ _ hq r rfl d hd
    · obtain rfl : (ans, pos + 1) = r := Exec.pure_inj.mp hq
      subst hclosing
      cases d with
      | zero => exact .stop l
      | succ d => exact .close (hdrop ▸ hd d rfl)
    · -- the call repeats itself
      exact hl ▸ ih _ _ _ hq r rfl d hd

/-- **Where the text is passed, `func_recursion` returns**, and passes what is left. -/
theorem returns_of_passes (ans : Text) (hs : s.drop i = l) (h : Passes d l) : ∃ r : Text × ℕ,
    funcRecursionLoop s i ans = (pure r : Exec _) ∧ (s.drop r.2).length ≤ l.length ∧
      ∀ d', d = d' + 1 → Passes d' (s.drop r.2) := by
  induction hlen : l.length using Nat.strong_induction_on generalizing l i d ans with
  | h n ih =>
    subst hlen
    cases h with
    | done =>
      refine ⟨_, funcRecursionLoop_end hs, hs ▸ le_rfl, fun d' _ => ?_⟩
      exact hs ▸ .done d'
    | @letter _ c l hc h =>
      obtain ⟨r, hr, hle, hpass⟩ := ih l.length (Nat.lt_succ_self _) (ans ++ [c])
        (getElem_of_drop hs).2.2 h rfl
      exact ⟨r, (funcRecursionLoop_alpha hs hc).trans hr, hle.trans (Nat.le_succ _), hpass⟩
    | @number _ c l m k hc hn hk h =>
      obtain ⟨j, hj, hm⟩ := numberLoop_of_readNumber hs hn
      have hlt := length_lt_of_readNumber hc hn
      have htail : m.tail.length ≤ m.length := by simp
      -- the call for what is between the brackets, and then the loop behind them
      obtain ⟨p, hp, hple, hppass⟩ := ih m.tail.length (by omega) []
        (by rw [← hm, List.tail_drop]) h rfl
      obtain ⟨ans', hrepeat⟩ :=
        (repeatLoop_returns (readNumber_range zero_range hn) p.1 ans).mpr hk
      obtain ⟨r, hr, hle, hpass⟩ := ih (s.drop p.2).length (by omega) ans' rfl
        (hppass _ rfl) rfl
      refine ⟨r, ?_, by omega, hpass⟩
      rw [funcRecursionLoop_digit hs hc, hj]
      simp only [pure_bind, hp, hrepeat, hr]
    | stop l =>
      refine ⟨_, funcRecursionLoop_closing hs, ?_, fun d' hd' => absurd hd' (by simp)⟩
      rw [(getElem_of_drop hs).2.2]
      exact Nat.le_succ _
    | @close d l h =>
      refine ⟨_, funcRecursionLoop_closing hs, ?_, fun d' hd' => ?_⟩
      · rw [(getElem_of_drop hs).2.2]
        exact Nat.le_succ _
      -- the bracket that is closed here is one of the caller
      · obtain rfl : d = d' := Nat.succ.inj hd'
        exact (getElem_of_drop hs).2.2 ▸ h

/-- **`func_recursion` returns exactly on what is passed.** -/
theorem funcRecursion_returns (s : Text) (pos : ℕ) :
    (∃ r, funcRecursion s pos = pure r) ↔ Passes 0 (s.drop pos) := by
  constructor
  · rintro ⟨r, hr⟩
    exact passes_of_returns s pos [] _ hr r rfl 0 fun d' hd' => absurd hd' (by simp)
  · intro h
    obtain ⟨r, hr, -, -⟩ := returns_of_passes [] rfl h
    exact ⟨r, hr⟩

/-! ### The decoder with two stacks -/

theorem matched_digit (hc : isdigit c) : Matched d ks (c :: l) ↔
    ∃ k m, readNumber 0 (c :: l) = some (k, m) ∧ Matched d (k :: ks) m := by
  constructor
  · intro h
    cases h with
    | number _ hn h => exact ⟨_, _, hn, h⟩
    | opening h => exact absurd hc (by decide)
    | closing hk h => exact absurd hc (by decide)
    | other hd _ _ _ => exact absurd hc hd
  · rintro ⟨k, m, hn, h⟩
    exact .number hc hn h

theorem matched_opening : Matched d ks (opening :: l) ↔ Matched (d + 1) ks l := by
  refine ⟨fun h => ?_, .opening⟩
  cases h with
  | number hc _ _ => exact absurd hc (by decide)
  | opening h => exact h
  | other _ ho _ _ => exact absurd rfl ho

theorem matched_closing : Matched d ks (closing :: l) ↔
    ∃ d' k ks', d = d' + 1 ∧ ks = k :: ks' ∧ 0 ≤ k ∧ Matched d' ks' l := by
  constructor
  · intro h
    cases h with
    | number hc _ _ => exact absurd hc (by decide)
    | closing hk h => exact ⟨_, _, _, rfl, rfl, hk, h⟩
    | other _ _ hc _ => exact absurd rfl hc
  · rintro ⟨d', k, ks', rfl, rfl, hk, h⟩
    exact .closing hk h

theorem matched_other (hd : ¬ isdigit c) (ho : c ≠ opening) (hc : c ≠ closing) :
    Matched d ks (c :: l) ↔ Matched d ks l := by
  refine ⟨fun h => ?_, .other hd ho hc⟩
  cases h with
  | number h _ _ => exact absurd h hd
  | opening h => exact absurd rfl ho
  | closing hk h => exact absurd rfl hc
  | other _ _ _ h => exact h

/-- Without an open bracket the stack of characters becomes empty. -/
theorem closeBracket_notMem (h : opening ∉ chars) :
    closeBracket nums chars = throw .emptyStack := by
  rw [closeBracket, popLoop_nil h]
  rfl

/-- Without a number the stack of numbers is empty. -/
theorem closeBracket_nil {t : Text} (h : opening ∉ t) :
    closeBracket [] (t ++ opening :: chars) = throw .emptyStack := by
  rw [closeBracket, popLoop_opening h]
  rfl

/-- By a negative number nothing is repeated. -/
theorem closeBracket_neg {t : Text} (h : opening ∉ t) (hk : k < 0) (hmin : intMin ≤ k)
    (r : List ℤ × List Byte) :
    closeBracket (toUint32 k :: nums) (t ++ opening :: chars) ≠ pure r := by
  intro hr
  have hof : ofUint32 (toUint32 k) = k :=
    ofUint32_toUint32 hmin (hk.le.trans (by decide))
  rw [closeBracket, popLoop_opening h] at hr
  simp only [pop, pure_bind, hof, repeatLoop_neg hk hmin] at hr
  obtain ⟨-, -, hr⟩ := Exec.bind_eq_pure.mp hr
  exact Exec.pure_ne_throw _ _ hr.symm

/-- The first of the equal elements of a list. -/
theorem exists_first {α : Type} [DecidableEq α] {a : α} {l : List α} (h : a ∈ l) :
    ∃ l₁ l₂, l = l₁ ++ a :: l₂ ∧ a ∉ l₁ := by
  obtain ⟨l₁, l₂, h₁, hl, -⟩ := List.exists_erase_eq h
  exact ⟨l₁, l₂, hl, h₁⟩

theorem notMem_copies {t : Text} (h : c ∉ t) (n : ℕ) : c ∉ copies n t := by
  intro hmem
  obtain ⟨t', ht', hc⟩ := List.mem_flatten.mp hmem
  exact h (List.eq_of_mem_replicate ht' ▸ hc)

/-- **The branch for `']'` returns** exactly with a bracket and with a number that is not
negative, and it leaves one bracket less. -/
theorem closeBracket_returns (hks : ∀ k ∈ ks, intMin ≤ k ∧ k ≤ intMax) {r : List ℤ × List Byte} :
    closeBracket (ks.map toUint32) chars = pure r ↔ ∃ t rest k ks', chars = t ++ opening :: rest ∧
      opening ∉ t ∧ ks = k :: ks' ∧ 0 ≤ k ∧
        r = (ks'.map toUint32, (copies k.toNat t.reverse).reverse ++ rest) := by
  constructor
  · intro hr
    by_cases hmem : opening ∈ chars
    · obtain ⟨t, rest, rfl, ht⟩ := exists_first hmem
      cases ks with
      | nil => exact absurd (hr.symm.trans (closeBracket_nil ht)) (Exec.pure_ne_throw _ _)
      | cons k ks =>
        obtain ⟨hmin, hmax⟩ := hks k List.mem_cons_self
        by_cases hk : 0 ≤ k
        · obtain ⟨n, rfl⟩ := Int.eq_ofNat_of_zero_le hk
          have heq := closeBracket_eq (ks.map toUint32) rest hmax
            (t := t.reverse) (by rwa [List.mem_reverse])
          rw [List.reverse_reverse] at heq
          exact ⟨t, rest, n, ks, rfl, ht, rfl, hk, Exec.pure_unique hr heq⟩
        · exact absurd hr (closeBracket_neg ht (not_le.mp hk) hmin r)
    · exact absurd (hr.symm.trans (closeBracket_notMem hmem)) (Exec.pure_ne_throw _ _)
  · rintro ⟨t, rest, k, ks', rfl, ht, rfl, hk, rfl⟩
    obtain ⟨n, rfl⟩ := Int.eq_ofNat_of_zero_le hk
    have heq := closeBracket_eq (ks'.map toUint32) rest
      (hks n List.mem_cons_self).2 (t := t.reverse) (by rwa [List.mem_reverse])
    rwa [List.reverse_reverse] at heq

theorem count_copies {t rest : Text} (ht : opening ∉ t) (n : ℕ) :
    ((copies n t.reverse).reverse ++ rest).count opening = rest.count opening := by
  have hnot : opening ∉ (copies n t.reverse).reverse := by
    rw [List.mem_reverse]
    exact notMem_copies (by rwa [List.mem_reverse]) n
  rw [List.count_append, List.count_eq_zero_of_not_mem hnot, Nat.zero_add]

theorem count_open {t rest : Text} (ht : opening ∉ t) :
    (t ++ opening :: rest).count opening = rest.count opening + 1 := by
  rw [List.count_append, List.count_eq_zero_of_not_mem ht, Nat.zero_add, List.count_cons_self]

/-- **`func` returns exactly on what is matched**, with the brackets of the stack open and its
numbers not yet used. -/
theorem funcLoop_returns (chars : List Byte) (hks : ∀ k ∈ ks, intMin ≤ k ∧ k ≤ intMax)
    (hs : s.drop i = l) :
    (∃ r, funcLoop s i (ks.map toUint32) chars = pure r) ↔
      Matched (chars.count opening) ks l := by
  -- what is left of the string gets shorter, but not by one byte: a number is read as a whole
  induction hlen : l.length using Nat.strong_induction_on generalizing l i ks chars with
  | h n ih =>
    subst hlen
    cases l with
    | nil => exact iff_of_true ⟨chars, funcLoop_end hs⟩ (.done _ _)
    | cons c l =>
      have hrest := (getElem_of_drop hs).2.2
      have hlt : l.length < (c :: l).length := Nat.lt_succ_self _
      by_cases hd : isdigit c
      · rw [funcLoop_digit hs hd, matched_digit hd]
        constructor
        · rintro ⟨r, hr⟩
          obtain ⟨⟨j, k⟩, hnum, hr⟩ := Exec.bind_eq_pure.mp hr
          have hread := readNumber_of_numberLoop hs hnum
          have hk := readNumber_range zero_range hread
          refine ⟨k, s.drop j, hread, ?_⟩
          exact (ih _ (length_lt_of_readNumber hd hread) chars (List.forall_mem_cons.mpr ⟨hk, hks⟩)
            rfl rfl).mp ⟨r, hr⟩
        · rintro ⟨k, m, hread, h⟩
          obtain ⟨j, hnum, hm⟩ := numberLoop_of_readNumber hs hread
          have hk := readNumber_range zero_range hread
          obtain ⟨r, hr⟩ := (ih _ (length_lt_of_readNumber hd hread) chars
            (List.forall_mem_cons.mpr ⟨hk, hks⟩) hm rfl).mpr h
          exact ⟨r, by rw [hnum, pure_bind]; exact hr⟩
      · by_cases ho : c = opening
        · subst ho
          rw [funcLoop_opening hs, ih _ hlt _ hks hrest rfl, List.count_cons_self, matched_opening]
        · by_cases hc : c = closing
          · subst hc
            rw [funcLoop_closing hs, matched_closing]
            constructor
            · rintro ⟨r, hr⟩
              obtain ⟨q, hq, hr⟩ := Exec.bind_eq_pure.mp hr
              obtain ⟨t, rest, k, ks', rfl, ht, rfl, hk, rfl⟩ := (closeBracket_returns hks).mp hq
              have hmatch := (ih _ hlt _ (fun b hb => hks b (List.mem_cons_of_mem k hb)) hrest
                rfl).mp ⟨r, hr⟩
              rw [count_copies ht] at hmatch
              exact ⟨_, k, ks', count_open ht, rfl, hk, hmatch⟩
            · rintro ⟨d, k, ks', hcount, rfl, hk, h⟩
              -- a bracket is open, so that the copies are made of what stands above the last one
              have hmem : opening ∈ chars := List.count_pos_iff.mp (by omega)
              obtain ⟨t, rest, rfl, ht⟩ := exists_first hmem
              obtain rfl : rest.count opening = d :=
                Nat.succ.inj ((count_open ht).symm.trans hcount)
              rw [← count_copies ht k.toNat] at h
              obtain ⟨r, hr⟩ := (ih _ hlt _ (fun b hb => hks b (List.mem_cons_of_mem k hb)) hrest
                rfl).mpr h
              have hclose := (closeBracket_returns hks).mpr ⟨t, rest, k, ks', rfl, ht, rfl, hk, rfl⟩
              exact ⟨r, by rw [hclose, pure_bind]; exact hr⟩
          · rw [funcLoop_other hs hd ho hc, ih _ hlt _ hks hrest rfl, List.count_cons_of_ne ho,
              matched_other hd ho hc]

/-- **`func` returns exactly on what is matched.** -/
theorem func_returns (s : Text) : (∃ r, func s = pure r) ↔ Matched 0 [] s := by
  have hloop := funcLoop_returns (s := s) (i := 0) [] (List.forall_mem_nil _) rfl
  rw [List.count_nil, List.drop_zero] at hloop
  rw [← hloop]
  constructor
  · rintro ⟨r, hr⟩
    obtain ⟨chars, hchars, -⟩ := Exec.bind_eq_pure.mp hr
    exact ⟨chars, hchars⟩
  · rintro ⟨chars, hchars⟩
    exact ⟨chars.reverse, Exec.bind_eq_pure.mpr ⟨chars, hchars, rfl⟩⟩

end DecodeString

end Candcpp
