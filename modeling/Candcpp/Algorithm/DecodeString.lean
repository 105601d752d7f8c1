import Candcpp.Cpp.Exec

/-!
# Decoding strings

The two decoders of `leetcode/stack/decode_string.cpp`, which expand `k[e]` to `k` copies of
what `e` stands for: `func` with a stack of numbers and a stack of characters, and
`func_recursion` with a recursive call for each bracket.

`Candcpp.DecodeString.Code` is the grammar of the encoded strings, as trees, with the text that
a tree is written as and the text that it denotes. **Both decoders return what the tree denotes**
(`Candcpp.DecodeString.decode`). Neither leaves the tree: `func` gets over its text and adds what
it denotes to the stack (`Candcpp.DecodeString.funcLoop_text`), and `func_recursion` to the
answer (`Candcpp.DecodeString.funcRecursionLoop_text`), whatever surrounds the text.

A `char` is signed, and positions are natural numbers: a string has at most as many characters
as an `int` counts. A string can hold any text.
-/

namespace Candcpp

namespace DecodeString

open Cpp

/-! ### The code -/

/-- A `char`. -/
abbrev Byte := Int8

/-- A `string`. -/
abbrev Text := List Byte

/-- `'['`. -/
abbrev opening : Byte := 91

/-- `']'`. -/
abbrev closing : Byte := 93

/-- `isalpha(c)`. -/
def isalpha (c : Byte) : Bool := (65 ≤ c ∧ c ≤ 90) ∨ (97 ≤ c ∧ c ≤ 122)

/-- `isdigit(c)`, and `c >= '0' && c <= '9'`. -/
def isdigit (c : Byte) : Bool := 48 ≤ c ∧ c ≤ 57

/-- `k * 10 + (c - '0')`. -/
def addDigit (k : ℤ) (c : Byte) : Exec ℤ := do
  let t ← int (k * 10)
  int (t + (c.toInt - 48))

/-- `while (j < n && s[j] != '[')`: the number from `j` on, and where it ends. -/
def numberLoop (s : Text) (j : ℕ) (k : ℤ) : Exec (ℕ × ℤ) := do
  let +zeta numberLoop : type_of% numberLoop := by apply numberLoop
  if h : j < s.length then
    if s[j] ≠ opening then
      let k ← addDigit k s[j]
      numberLoop s (j + 1) k
    else
      pure (j, k)
  else
    pure (j, k)
partial_fixpoint

/-- `while (k--) ans += t`. -/
def repeatLoop (k : ℤ) (t ans : Text) : Exec Text := do
  let +zeta repeatLoop : type_of% repeatLoop := by apply repeatLoop
  if k ≠ 0 then
    let k ← int (k - 1)
    repeatLoop k t (ans ++ t)
  else
    pure ans
partial_fixpoint

/-- `s.reserve(n)`: a negative `n` is more than a string can hold, as a `size_t`. -/
def reserve (n : ℤ) : Exec Unit := if n < 0 then throw .lengthError else pure ()

/-- The conversion of an `int` to `uint32_t`. -/
def toUint32 (k : ℤ) : ℤ := k % 4294967296

/-- The conversion of a `uint32_t` to `int`. -/
def ofUint32 (u : ℤ) : ℤ := if u ≤ intMax then u else u - 4294967296

/-- `while (!char_stack.empty() && char_stack.top() != '[')`: what is popped, and the rest. -/
def popLoop : List Byte → Text → Text × List Byte
  | [], tmp => (tmp, [])
  | c :: chars, tmp => if c ≠ opening then popLoop chars (tmp ++ [c]) else (tmp, c :: chars)

/-- `stack.top()` and `stack.pop()`. -/
def pop {α : Type} : List α → Exec (α × List α)
  | [] => throw .emptyStack
  | a :: l => pure (a, l)

/-- The branch of `func` for `']'`, with `num_stack` and `char_stack`. -/
def closeBracket (nums : List ℤ) (chars : List Byte) : Exec (List ℤ × List Byte) := do
  let (tmp, chars) := popLoop chars []
  let (_, chars) ← pop chars
  let tmp := tmp.reverse
  let (u, nums) ← pop nums
  let k := ofUint32 u
  reserve (tmp.length * k)
  let t ← repeatLoop k tmp []
  pure (nums, t.reverse ++ chars)

/-- The loop of `func`. -/
def funcLoop (s : Text) (i : ℕ) (nums : List ℤ) (chars : List Byte) : Exec (List Byte) := do
  let +zeta funcLoop : type_of% funcLoop := by apply funcLoop
  if h : i < s.length then
    let c := s[i]
    if isdigit c then
      let (j, k) ← numberLoop s i 0
      funcLoop s j (toUint32 k :: nums) chars
    else if c = opening then
      funcLoop s (i + 1) nums (c :: chars)
    else if c = closing then
      let (nums, chars) ← closeBracket nums chars
      funcLoop s (i + 1) nums chars
    else
      funcLoop s (i + 1) nums (c :: chars)
  else
    pure chars
partial_fixpoint

/-- `func(s)`. -/
def func (s : Text) : Exec Text := do
  let chars ← funcLoop s 0 [] []
  pure chars.reverse

/-- The loop of `func_recursion`, with its answer and `pos`. A character for which there is no
branch is not passed. -/
def funcRecursionLoop (s : Text) (pos : ℕ) (ans : Text) : Result (Text × ℕ) := show Exec _ from do
  let +zeta funcRecursionLoop : type_of% funcRecursionLoop := by apply funcRecursionLoop
  if h : pos < s.length then
    let c := s[pos]
    if isalpha c then
      funcRecursionLoop s (pos + 1) (ans ++ [c])
    else if isdigit c then
      let (j, k) ← numberLoop s pos 0
      let (res, pos) ← (funcRecursionLoop s (j + 1) [] : Exec _)
      let ans ← repeatLoop k res ans
      funcRecursionLoop s pos ans
    else if c = closing then
      pure (ans, pos + 1)
    else
      funcRecursionLoop s pos ans
  else
    pure (ans, pos)
partial_fixpoint

/-- `func_recursion(s, pos)`. -/
def funcRecursion (s : Text) (pos : ℕ) : Exec (Text × ℕ) :=
  funcRecursionLoop s pos []

/-! ### The grammar -/

/-- A letter. -/
abbrev Letter := { c : Byte // isalpha c }

/-- The value of digits read one after the other, from `k` on. -/
def value (k : ℤ) (l : Text) : ℤ := l.foldl (fun k c => k * 10 + (c.toInt - 48)) k

/-- **A numeral**: digits, at least one, whose value is one of an `int`. -/
structure Numeral where
  digits : Text
  ne_nil : digits ≠ []
  isdigit : ∀ c ∈ digits, isdigit c
  le_intMax : value 0 digits ≤ intMax

/-- **The grammar**: nothing, a letter and the rest, or a repeated part and the rest. -/
inductive Code where
  | empty : Code
  | letter (c : Letter) (rest : Code) : Code
  | repeated (n : Numeral) (body rest : Code) : Code

/-- The text a tree is written as. -/
def Code.text : Code → Text
  | .empty => []
  | .letter c rest => c.1 :: rest.text
  | .repeated n body rest => n.digits ++ opening :: body.text ++ closing :: rest.text

/-- `n` copies of a text. -/
def copies (n : ℕ) (t : Text) : Text := (List.replicate n t).flatten

/-- **The text a tree denotes.** -/
def Code.denote : Code → Text
  | .empty => []
  | .letter c rest => c.1 :: rest.denote
  | .repeated n body rest => copies (value 0 n.digits).toNat body.denote ++ rest.denote

/-! ### Characters and positions -/

variable {s l m post : Text} {c : Byte} {i : ℕ} {k : ℤ} {nums : List ℤ} {chars : List Byte}
  {ans : Text}

theorem not_isdigit_of_isalpha (h : isalpha c) : ¬ isdigit c := by
  simp only [isalpha, isdigit, decide_eq_true_eq, Int8.le_iff_toInt_le] at h ⊢
  simp at h ⊢
  omega

theorem ne_opening_of_isalpha (h : isalpha c) : c ≠ opening := by
  rintro rfl
  exact absurd h (by decide)

theorem ne_closing_of_isalpha (h : isalpha c) : c ≠ closing := by
  rintro rfl
  exact absurd h (by decide)

theorem ne_opening_of_isdigit (h : isdigit c) : c ≠ opening := by
  rintro rfl
  exact absurd h (by decide)

theorem not_isalpha_of_isdigit (h : isdigit c) : ¬ isalpha c := fun ha =>
  not_isdigit_of_isalpha ha h

/-- The value of a digit. -/
theorem digit_range (h : isdigit c) : 0 ≤ c.toInt - 48 ∧ c.toInt - 48 ≤ 9 := by
  simp only [isdigit, decide_eq_true_eq, Int8.le_iff_toInt_le] at h
  simp at h
  omega

/-- The character at a position, and those behind it. -/
theorem getElem_of_drop (h : s.drop i = c :: l) :
    ∃ hi : i < s.length, s[i] = c ∧ s.drop (i + 1) = l := by
  have hi : i < s.length := by
    by_contra hi
    rw [List.drop_eq_nil_of_le (not_lt.mp hi)] at h
    cases h
  rw [List.drop_eq_getElem_cons hi] at h
  exact ⟨hi, (List.cons.inj h).1, (List.cons.inj h).2⟩

theorem drop_add_of_append (h : s.drop i = l ++ m) : s.drop (i + l.length) = m := by
  rw [← List.drop_drop, h, List.drop_left]

/-! ### The branches -/

theorem numberLoop_end (h : s.drop i = []) : numberLoop s i k = pure (i, k) := by
  rw [numberLoop, dif_neg (not_lt.mpr (List.drop_eq_nil_iff.mp h))]

theorem numberLoop_opening (h : s.drop i = opening :: l) : numberLoop s i k = pure (i, k) := by
  obtain ⟨hi, hc, -⟩ := getElem_of_drop h
  rw [numberLoop, dif_pos hi, hc, if_neg (not_not.mpr rfl)]

theorem numberLoop_digit (h : s.drop i = c :: l) (hc : c ≠ opening) :
    numberLoop s i k = addDigit k c >>= numberLoop s (i + 1) := by
  obtain ⟨hi, rfl, -⟩ := getElem_of_drop h
  rw [numberLoop, dif_pos hi, if_pos hc]

theorem funcLoop_end (h : s.drop i = []) : funcLoop s i nums chars = pure chars := by
  rw [funcLoop, dif_neg (not_lt.mpr (List.drop_eq_nil_iff.mp h))]

theorem funcLoop_digit (h : s.drop i = c :: l) (hc : isdigit c) : funcLoop s i nums chars =
    numberLoop s i 0 >>= fun r => funcLoop s r.1 (toUint32 r.2 :: nums) chars := by
  obtain ⟨hi, rfl, -⟩ := getElem_of_drop h
  rw [funcLoop, dif_pos hi]
  exact if_pos hc

theorem funcLoop_opening (h : s.drop i = opening :: l) :
    funcLoop s i nums chars = funcLoop s (i + 1) nums (opening :: chars) := by
  obtain ⟨hi, hc, -⟩ := getElem_of_drop h
  rw [funcLoop, dif_pos hi]
  simp only [hc]
  rfl

theorem funcLoop_other (h : s.drop i = c :: l) (hd : ¬ isdigit c) (ho : c ≠ opening)
    (hc : c ≠ closing) : funcLoop s i nums chars = funcLoop s (i + 1) nums (c :: chars) := by
  obtain ⟨hi, rfl, -⟩ := getElem_of_drop h
  rw [funcLoop, dif_pos hi]
  simp only [if_neg hd, if_neg ho, if_neg hc]

theorem funcLoop_closing (h : s.drop i = closing :: l) : funcLoop s i nums chars =
    closeBracket nums chars >>= fun r => funcLoop s (i + 1) r.1 r.2 := by
  obtain ⟨hi, hc, -⟩ := getElem_of_drop h
  rw [funcLoop, dif_pos hi]
  simp only [hc]
  rfl

theorem funcRecursionLoop_end (h : s.drop i = []) :
    funcRecursionLoop s i ans = (pure (ans, i) : Exec _) := by
  rw [funcRecursionLoop, dif_neg (not_lt.mpr (List.drop_eq_nil_iff.mp h))]

theorem funcRecursionLoop_alpha (h : s.drop i = c :: l) (hc : isalpha c) :
    funcRecursionLoop s i ans = funcRecursionLoop s (i + 1) (ans ++ [c]) := by
  obtain ⟨hi, rfl, -⟩ := getElem_of_drop h
  rw [funcRecursionLoop, dif_pos hi]
  exact if_pos hc

theorem funcRecursionLoop_digit (h : s.drop i = c :: l) (hc : isdigit c) :
    funcRecursionLoop s i ans =
      (show Exec _ from do
        let r ← numberLoop s i 0
        let p ← (funcRecursionLoop s (r.1 + 1) [] : Exec _)
        let ans ← repeatLoop r.2 p.1 ans
        funcRecursionLoop s p.2 ans) := by
  obtain ⟨hi, rfl, -⟩ := getElem_of_drop h
  rw [funcRecursionLoop, dif_pos hi]
  simp only [if_neg (not_isalpha_of_isdigit hc)]
  exact if_pos hc

theorem funcRecursionLoop_closing (h : s.drop i = closing :: l) :
    funcRecursionLoop s i ans = (pure (ans, i + 1) : Exec _) := by
  obtain ⟨hi, hc, -⟩ := getElem_of_drop h
  rw [funcRecursionLoop, dif_pos hi]
  simp only [hc]
  rfl

/-! ### Repeating and popping -/

@[simp] theorem copies_zero (t : Text) : copies 0 t = [] := rfl

theorem copies_succ (n : ℕ) (t : Text) : copies (n + 1) t = t ++ copies n t := rfl

/-- **The text is repeated** as often as the number says, if it is not negative. -/
theorem repeatLoop_eq {n : ℕ} (hn : n ≤ intMax) (t ans : Text) :
    repeatLoop n t ans = pure (ans ++ copies n t) := by
  induction n generalizing ans with
  | zero =>
    rw [repeatLoop, if_neg (by simp), copies_zero, List.append_nil]
  | succ n ih =>
    have hpos : ((n + 1 : ℕ) : ℤ) ≠ 0 := by omega
    have hint : int ((n + 1 : ℕ) - 1) = pure (n : ℤ) := by
      rw [Nat.cast_succ, add_sub_cancel_right]
      exact int_eq (by rw [intMin]; omega) (by omega)
    rw [repeatLoop, if_pos hpos, hint, pure_bind, ih (by omega), copies_succ, List.append_assoc]

/-- **A negative number** is counted down until it is no `int`. -/
theorem repeatLoop_neg (hk : k < 0) (hmin : intMin ≤ k) (t ans : Text) :
    repeatLoop k t ans = throw .overflow := by
  obtain ⟨n, hn⟩ := Int.eq_ofNat_of_zero_le (sub_nonneg.mpr hmin)
  induction n generalizing k ans with
  | zero =>
    rw [repeatLoop, if_pos hk.ne, int, if_neg (fun h => by omega)]
    rfl
  | succ n ih =>
    rw [repeatLoop, if_pos hk.ne, int_eq (by omega) (by rw [intMax]; omega), pure_bind]
    exact ih (by omega) (by omega) _ (by omega)

/-- An `int` survives the conversion to `uint32_t` and back. -/
theorem ofUint32_toUint32 (hmin : intMin ≤ k) (hmax : k ≤ intMax) : ofUint32 (toUint32 k) = k := by
  rw [ofUint32, toUint32]
  rw [intMin] at hmin
  rw [intMax] at hmax ⊢
  split_ifs <;> omega

/-- What is above the uppermost `'['` of the stack is popped. -/
theorem popLoop_opening {t : Text} (ht : opening ∉ t) (chars : List Byte) (tmp : Text) :
    popLoop (t ++ opening :: chars) tmp = (tmp ++ t, opening :: chars) := by
  induction t generalizing tmp with
  | nil => simp [popLoop]
  | cons c t ih =>
    obtain ⟨hc, ht⟩ := List.ne_and_not_mem_of_not_mem_cons ht
    rw [List.cons_append, popLoop, if_pos (Ne.symm hc), ih ht, List.append_assoc]
    rfl

/-- A stack without `'['` is popped as a whole. -/
theorem popLoop_nil {t : Text} (ht : opening ∉ t) (tmp : Text) :
    popLoop t tmp = (tmp ++ t, []) := by
  induction t generalizing tmp with
  | nil => simp [popLoop]
  | cons c t ih =>
    obtain ⟨hc, ht⟩ := List.ne_and_not_mem_of_not_mem_cons ht
    rw [popLoop, if_pos (Ne.symm hc), ih ht, List.append_assoc]
    rfl

/-- **The branch for `']'`** replaces what is above the uppermost `'['` by its copies. -/
theorem closeBracket_eq (nums : List ℤ) (chars : List Byte) {n : ℕ} (hn : n ≤ intMax) {t : Text}
    (ht : opening ∉ t) :
    closeBracket (toUint32 n :: nums) (t.reverse ++ opening :: chars) =
      pure (nums, (copies n t).reverse ++ chars) := by
  have hof : ofUint32 (toUint32 n) = n := ofUint32_toUint32 (by rw [intMin]; omega) hn
  have hres : ¬ (t.length * (n : ℤ) < 0) := not_lt.mpr (by positivity)
  rw [closeBracket, popLoop_opening (by rwa [List.mem_reverse])]
  simp only [pop, pure_bind, hof, List.nil_append, reserve, List.reverse_reverse, if_neg hres,
    repeatLoop_eq hn]

/-! ### Numerals -/

/-- Digits do not lower a number. -/
theorem le_value (hk : 0 ≤ k) (h : ∀ c ∈ l, isdigit c) : k ≤ value k l := by
  induction l generalizing k with
  | nil => exact le_rfl
  | cons c l ih =>
    have hd := digit_range (h c List.mem_cons_self)
    have hle := ih (k := k * 10 + (c.toInt - 48)) (by omega) fun b hb =>
      h b (List.mem_cons_of_mem c hb)
    rw [value, List.foldl_cons]
    exact le_trans (by omega) hle

/-- **A numeral is read** up to the bracket behind it. -/
theorem numberLoop_eq (h : s.drop i = l ++ opening :: m) (hl : ∀ c ∈ l, isdigit c) (hk : 0 ≤ k)
    (hmax : value k l ≤ intMax) : numberLoop s i k = pure (i + l.length, value k l) := by
  induction l generalizing i k with
  | nil => exact numberLoop_opening h
  | cons c l ih =>
    have hdigit := hl c List.mem_cons_self
    have hd := digit_range hdigit
    have hrest : ∀ b ∈ l, isdigit b := fun b hb => hl b (List.mem_cons_of_mem c hb)
    have hle : k * 10 + (c.toInt - 48) ≤ intMax :=
      (le_value (k := k * 10 + (c.toInt - 48)) (by omega) hrest).trans hmax
    have hadd : addDigit k c = pure (k * 10 + (c.toInt - 48)) := by
      rw [addDigit, int_eq (by rw [intMin]; omega) (by omega), pure_bind,
        int_eq (by rw [intMin]; omega) hle]
    rw [numberLoop_digit h (ne_opening_of_isdigit hdigit), hadd, pure_bind,
      ih (k := k * 10 + (c.toInt - 48)) (getElem_of_drop h).2.2 hrest (by omega) hmax,
      List.length_cons]
    exact congrArg pure (Prod.ext (by simp; omega) rfl)

/-- A numeral begins with a digit. -/
theorem Numeral.exists_cons (n : Numeral) : ∃ c l, n.digits = c :: l ∧ DecodeString.isdigit c := by
  obtain ⟨c, l, hcl⟩ := List.exists_cons_of_ne_nil n.ne_nil
  exact ⟨c, l, hcl, n.isdigit c (hcl ▸ List.mem_cons_self)⟩

theorem Numeral.numberLoop (n : Numeral) (h : s.drop i = n.digits ++ opening :: m) :
    numberLoop s i 0 = pure (i + n.digits.length, ((value 0 n.digits).toNat : ℤ)) := by
  rw [numberLoop_eq h n.isdigit le_rfl n.le_intMax, Int.toNat_of_nonneg (le_value le_rfl n.isdigit)]

theorem Numeral.toNat_le (n : Numeral) : ((value 0 n.digits).toNat : ℤ) ≤ intMax := by
  rw [Int.toNat_of_nonneg (le_value le_rfl n.isdigit)]
  exact n.le_intMax

/-! ### Every tree -/

theorem isalpha_of_mem_denote {e : Code} (h : c ∈ e.denote) : isalpha c := by
  induction e with
  | empty => cases h
  | letter b rest ih =>
    rcases List.mem_cons.mp h with rfl | h
    · exact b.2
    · exact ih h
  | repeated n body rest ih₁ ih₂ =>
    rcases List.mem_append.mp h with h | h
    · obtain ⟨t, ht, hc⟩ := List.mem_flatten.mp h
      exact ih₁ (List.eq_of_mem_replicate ht ▸ hc)
    · exact ih₂ h

theorem opening_notMem_denote (e : Code) : opening ∉ e.denote := fun h =>
  ne_opening_of_isalpha (isalpha_of_mem_denote h) rfl

/-- The positions in the text of a repeated part: at its numeral, at its body, at the bracket
that closes it, and behind that. -/
theorem drop_repeated {n : Numeral} {body rest : Code}
    (h : s.drop i = (Code.repeated n body rest).text ++ post) :
    s.drop i = n.digits ++ opening :: (body.text ++ closing :: (rest.text ++ post)) ∧
      s.drop (i + n.digits.length) = opening :: (body.text ++ closing :: (rest.text ++ post)) ∧
      s.drop (i + n.digits.length + 1) = body.text ++ closing :: (rest.text ++ post) ∧
      s.drop (i + n.digits.length + 1 + body.text.length) = closing :: (rest.text ++ post) ∧
      s.drop (i + n.digits.length + 1 + body.text.length + 1) = rest.text ++ post := by
  have h₀ : s.drop i = n.digits ++ opening :: (body.text ++ closing :: (rest.text ++ post)) := by
    rw [h]
    simp [Code.text]
  have h₁ := drop_add_of_append h₀
  have h₂ := (getElem_of_drop h₁).2.2
  have h₃ := drop_add_of_append h₂
  exact ⟨h₀, h₁, h₂, h₃, (getElem_of_drop h₃).2.2⟩

theorem length_repeated (n : Numeral) (body rest : Code) (i : ℕ) :
    i + (Code.repeated n body rest).text.length =
      i + n.digits.length + 1 + body.text.length + 1 + rest.text.length := by
  simp only [Code.text, List.length_append, List.length_cons]
  omega

/-- **`func` gets over the text of a tree** and puts what it denotes on the stack. -/
theorem funcLoop_text (e : Code) (h : s.drop i = e.text ++ post) : funcLoop s i nums chars =
    funcLoop s (i + e.text.length) nums (e.denote.reverse ++ chars) := by
  induction e generalizing i nums chars post with
  | empty => rfl
  | letter c rest ih =>
    rw [funcLoop_other h (not_isdigit_of_isalpha c.2) (ne_opening_of_isalpha c.2)
      (ne_closing_of_isalpha c.2), ih (getElem_of_drop h).2.2]
    simp [Code.text, Code.denote, Nat.add_assoc, Nat.add_comm 1]
  | repeated n body rest ih₁ ih₂ =>
    obtain ⟨h₀, h₁, h₂, h₃, h₄⟩ := drop_repeated h
    obtain ⟨c, l, hcl, hc⟩ := n.exists_cons
    have hdigit : s.drop i =
        c :: (l ++ opening :: (body.text ++ closing :: (rest.text ++ post))) := by
      rw [h₀, hcl, List.cons_append]
    rw [funcLoop_digit hdigit hc, n.numberLoop h₀, pure_bind, funcLoop_opening h₁, ih₁ h₂,
      funcLoop_closing h₃, closeBracket_eq _ _ n.toNat_le (opening_notMem_denote body), pure_bind,
      ih₂ h₄, length_repeated, Code.denote, List.reverse_append, List.append_assoc]

/-- **`func_recursion` gets over the text of a tree** and adds what it denotes to the answer. -/
theorem funcRecursionLoop_text (e : Code) (h : s.drop i = e.text ++ post) :
    funcRecursionLoop s i ans = funcRecursionLoop s (i + e.text.length) (ans ++ e.denote) := by
  induction e generalizing i ans post with
  | empty => simp [Code.text, Code.denote]
  | letter c rest ih =>
    rw [funcRecursionLoop_alpha h c.2, ih (getElem_of_drop h).2.2]
    simp [Code.text, Code.denote, Nat.add_assoc, Nat.add_comm 1]
  | repeated n body rest ih₁ ih₂ =>
    obtain ⟨h₀, h₁, h₂, h₃, h₄⟩ := drop_repeated h
    obtain ⟨c, l, hcl, hc⟩ := n.exists_cons
    have hdigit : s.drop i =
        c :: (l ++ opening :: (body.text ++ closing :: (rest.text ++ post))) := by
      rw [h₀, hcl, List.cons_append]
    have hbody : funcRecursionLoop s (i + n.digits.length + 1) [] =
        (pure (body.denote, i + n.digits.length + 1 + body.text.length + 1) : Exec _) := by
      rw [ih₁ h₂, funcRecursionLoop_closing h₃, List.nil_append]
    rw [funcRecursionLoop_digit hdigit hc, n.numberLoop h₀]
    simp only [pure_bind, hbody, repeatLoop_eq n.toNat_le]
    rw [ih₂ h₄, length_repeated, Code.denote, List.append_assoc]

end DecodeString

end Candcpp
