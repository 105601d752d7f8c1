import Candcpp.Cpp.Exec

/-!
# Strings that end with a zero byte

The functions of the C library on character arrays. An array is the list of its bytes, and a string
in it (`Candcpp.Cpp.IsStr`) is what stands in front of the first zero byte from a place on. The
functions fault where they leave the array, so that a theorem that a program returns says as well
that it reads and writes no byte outside its arrays.

`isspace`, `tolower` and `atoi` are those of the C locale.
-/

namespace Candcpp

namespace Cpp

/-- The bytes of a literal. -/
def ascii (s : String) : List UInt8 := s.toList.map fun c => c.toNat.toUInt8

/-- `isspace(c)`. -/
def isspace (c : UInt8) : Bool := c == 32 || (9 ≤ c && c ≤ 13)

/-- `isdigit(c)`. -/
def isdigit (c : UInt8) : Bool := 48 ≤ c && c ≤ 57

/-- `tolower(c)`. -/
def tolower (c : UInt8) : UInt8 := if 65 ≤ c ∧ c ≤ 90 then c + 32 else c

/-- No letter becomes the zero byte. -/
theorem tolower_eq_zero (c : UInt8) : tolower c = tolower 0 ↔ c = 0 := by
  revert c
  decide +kernel

/-! ### The functions -/

/-- Whether `strcmp(a + p, lit)` is zero, or `strcasecmp(a + p, lit)` where `f` is `tolower`. The
bytes are looked at up to the first difference. -/
def eqStr (f : UInt8 → UInt8) (a : List UInt8) : ℕ → List UInt8 → Exec Bool
  | p, [] => do
    let c ← nth a p
    pure (c == 0)
  | p, x :: lit => do
    let c ← nth a p
    if f c = f x then eqStr f a (p + 1) lit else pure false

/-- Whether `strcmp(a, lit)` is zero. -/
def strcmp (a lit : List UInt8) : Exec Bool := eqStr id a 0 lit

/-- Whether `strcasecmp(a, lit)` is zero. -/
def strcasecmp (a lit : List UInt8) : Exec Bool := eqStr tolower a 0 lit

/-- The string at `a + p`, as `strlen` and the format `%s` read it. -/
def str (a : List UInt8) (p : ℕ) : Exec (List UInt8) :=
  if 0 ∈ a.drop p then pure ((a.drop p).takeWhile (· ≠ 0)) else throw .outOfRange

/-- `strcpy(a + p, s)`, and `sprintf(a + p, …)` that prints `s`. -/
def putStr (a : List UInt8) (p : ℕ) (s : List UInt8) : Exec (List UInt8) :=
  if p + s.length < a.length then pure (a.take p ++ s ++ 0 :: a.drop (p + s.length + 1))
  else throw .outOfRange

/-- The number that digits stand for, behind others that stand for `n`. -/
def digitsFrom (n : ℕ) (ds : List UInt8) : ℕ := ds.foldl (fun n d => 10 * n + (d.toNat - 48)) n

/-- The sign in front of a number: whether it is a minus, and what follows it. -/
def sign : List UInt8 → Bool × List UInt8
  | [] => (false, [])
  | c :: s => if c = 45 then (true, s) else if c = 43 then (false, s) else (false, c :: s)

/-- The number at the front of a string: whether it has a minus, and its digits, with what follows
them. -/
def numeral (s : List UInt8) : Bool × List UInt8 := sign (s.dropWhile isspace)

/-- The number at the front of a string; zero if there is none. -/
def number (s : List UInt8) : ℤ :=
  if (numeral s).1 then - (digitsFrom 0 ((numeral s).2.takeWhile isdigit) : ℤ)
  else digitsFrom 0 ((numeral s).2.takeWhile isdigit)

/-- `atoi(s)`, of the bytes from `s` on: they are looked at up to the first one that does not
belong to a number. -/
def atoi (s : List UInt8) : Exec ℤ :=
  if ((numeral s).2.takeWhile isdigit).length < (numeral s).2.length then int (number s)
  else throw .outOfRange

/-- The digits of a number in decimal. -/
def decimalNat (n : ℕ) : List UInt8 :=
  if n = 0 then [48] else (Nat.digits 10 n).reverse.map fun d => UInt8.ofNat (48 + d)

/-- What the format `%d` prints. -/
def decimal (n : ℤ) : List UInt8 :=
  if n < 0 then 45 :: decimalNat n.natAbs else decimalNat n.natAbs

/-! ### Strings in an array -/

/-- **The string at a place** of an array. -/
def IsStr (a : List UInt8) (p : ℕ) (s : List UInt8) : Prop := 0 ∉ s ∧ s ++ [0] <+: a.drop p

/-- What stands in front of the first zero byte of a list. -/
def cut (l : List UInt8) : List UInt8 := l.takeWhile (· ≠ 0)

variable {a s lit t : List UInt8} {p : ℕ} {f : UInt8 → UInt8}

theorem zero_notMem_cut (l : List UInt8) : 0 ∉ cut l := by
  intro h
  have hne := List.mem_takeWhile_imp h
  simp at hne

theorem cut_eq_self {l : List UInt8} (h : 0 ∉ l) : cut l = l := by
  refine List.takeWhile_eq_self_iff.mpr fun c hc => ?_
  simp only [decide_eq_true_eq]
  rintro rfl
  exact h hc

/-- Nothing is cut off lines without zero bytes. -/
theorem map_cut {lines : List (List UInt8)} (h : 0 ∉ lines.flatten) : lines.map cut = lines := by
  have hcut : ∀ line ∈ lines, cut line = id line := fun line hline =>
    cut_eq_self fun hz => h (List.mem_flatten.mpr ⟨line, hline, hz⟩)
  rw [List.map_congr_left hcut, List.map_id]

/-- What stands behind a zero byte is cut off. -/
theorem cut_append_zero (s t : List UInt8) : cut (s ++ 0 :: t) = cut s := by
  induction s with
  | nil => rfl
  | cons c s ih =>
    rw [List.cons_append]
    by_cases hc : c = 0
    · simp [cut, hc]
    · simpa [cut, hc] using ih

/-- In front of a zero byte there is a string. -/
theorem cut_append_zero_prefix (l t : List UInt8) : cut l ++ [0] <+: l ++ 0 :: t := by
  induction l with
  | nil => exact ⟨t, rfl⟩
  | cons c l ih =>
    by_cases hc : c = 0
    · subst hc
      exact ⟨l ++ 0 :: t, by simp [cut]⟩
    · rw [cut, List.takeWhile_cons_of_pos (by simpa using hc), List.cons_append, List.cons_append]
      exact (List.prefix_cons_inj c).mpr ih

/-- An array after `s` and a zero byte have been stored at its front. -/
def overwrite (a s : List UInt8) : List UInt8 := s ++ 0 :: a.drop (s.length + 1)

theorem isStr_overwrite (a s : List UInt8) : IsStr (overwrite a s) 0 (cut s) :=
  ⟨zero_notMem_cut s, cut_append_zero_prefix s _⟩

theorem length_overwrite (h : s.length < a.length) : (overwrite a s).length = a.length := by
  simp only [overwrite, List.length_append, List.length_cons, List.length_drop]
  omega

/-- The byte at a place is the first one from there on. -/
theorem nth_of_drop {c : UInt8} (h : a.drop p = c :: t) : nth a p = pure c := by
  refine nth_eq ?_
  rw [← Nat.add_zero p, ← List.getElem?_drop, h]
  rfl

namespace IsStr

/-- The first byte of a string, or the zero byte behind it. -/
theorem nth_eq (h : IsStr a p s) : nth a p = pure (s.headD 0) := by
  obtain ⟨-, r, hr⟩ := h
  cases s with
  | nil => exact nth_of_drop hr.symm
  | cons c s => exact nth_of_drop hr.symm

theorem tail {c : UInt8} (h : IsStr a p (c :: s)) : IsStr a (p + 1) s := by
  obtain ⟨hz, r, hr⟩ := h
  refine ⟨fun hs => hz (List.mem_cons_of_mem c hs), r, ?_⟩
  rw [← List.drop_drop, ← hr]
  rfl

/-- The end of a string is a string. -/
theorem append {s' : List UInt8} (h : IsStr a p (s ++ s')) : IsStr a (p + s.length) s' := by
  induction s generalizing p with
  | nil => exact h
  | cons c s ih =>
    have hs := ih h.tail
    rwa [Nat.add_right_comm] at hs

theorem eq_cut (h : IsStr a p s) : s = cut (a.drop p) := by
  obtain ⟨hz, r, hr⟩ := h
  rw [← hr, List.append_assoc, List.singleton_append, cut_append_zero, cut_eq_self hz]

theorem str_eq (h : IsStr a p s) : str a p = pure s := by
  have hs := h.eq_cut
  obtain ⟨-, r, hr⟩ := h
  rw [str, if_pos (hr ▸ List.mem_append_left r (List.mem_append_right s List.mem_cons_self)), hs]
  rfl

/-- **Strings are compared** with a literal to the end of the shorter one. -/
theorem eqStr_eq (hf : ∀ c, f c = f 0 ↔ c = 0) (h : IsStr a p s) (hlit : 0 ∉ lit) :
    eqStr f a p lit = pure (decide (s.map f = lit.map f)) := by
  induction lit generalizing p s with
  | nil =>
    rw [eqStr, h.nth_eq, pure_bind]
    cases s with
    | nil => rfl
    | cons c s =>
      have hc : (c == 0) = false := beq_false_of_ne fun hc => h.1 (hc ▸ List.mem_cons_self)
      rw [List.headD_cons, hc]
      rfl
  | cons x lit ih =>
    obtain ⟨hx, hlit⟩ := not_or.mp (mt List.mem_cons.mpr hlit)
    rw [eqStr, h.nth_eq, pure_bind]
    cases s with
    | nil =>
      rw [List.headD_nil, if_neg (fun hfx => hx ((hf x).mp hfx.symm).symm)]
      simp
    | cons c s =>
      rw [List.headD_cons]
      split_ifs with hc
      · rw [ih h.tail hlit]
        simp [hc]
      · rw [List.map_cons, List.map_cons, decide_eq_false fun hmap => hc (List.cons.inj hmap).1]

end IsStr

theorem strcmp_eq (h : IsStr a 0 s) (hlit : 0 ∉ lit) : strcmp a lit = pure (decide (s = lit)) := by
  have heq : eqStr id a 0 lit = _ := h.eqStr_eq (fun _ => Iff.rfl) hlit
  rwa [List.map_id, List.map_id] at heq

theorem strcasecmp_eq (h : IsStr a 0 s) (hlit : 0 ∉ lit) :
    strcasecmp a lit = pure (decide (s.map tolower = lit.map tolower)) :=
  h.eqStr_eq tolower_eq_zero hlit

theorem putStr_eq (h : p + s.length < a.length) :
    putStr a p s = pure (a.take p ++ s ++ 0 :: a.drop (p + s.length + 1)) := if_pos h

theorem putStr_eq_throw (h : a.length ≤ p + s.length) : putStr a p s = throw .outOfRange :=
  if_neg h.not_gt

theorem length_putStr (h : p + s.length < a.length) :
    (a.take p ++ s ++ 0 :: a.drop (p + s.length + 1)).length = a.length := by
  simp only [List.length_append, List.length_take, List.length_cons, List.length_drop]
  omega

/-- A string is ended that has been copied to the front of an array, byte by byte. -/
theorem setNth_drop (h : s.length < a.length) :
    setNth (s ++ a.drop s.length) s.length 0 = pure (overwrite a s) := by
  have hdrop : a.drop s.length = a[s.length] :: a.drop (s.length + 1) :=
    List.drop_eq_getElem_cons h
  rw [setNth_eq (by simp only [List.length_append, List.length_drop]; omega), hdrop,
    List.set_append_right _ _ le_rfl, Nat.sub_self, List.set_cons_zero, overwrite]

theorem putStr_front (h : s.length < a.length) : putStr a 0 s = pure (overwrite a s) := by
  rw [putStr_eq ((Nat.zero_add _).trans_lt h), List.take_zero, List.nil_append, Nat.zero_add]
  rfl

/-! ### Numbers -/

/-- What stands behind a string does not belong to its number. -/
theorem numeral_append_zero (s t : List UInt8) :
    numeral (s ++ 0 :: t) = ((numeral s).1, (numeral s).2 ++ 0 :: t) := by
  have hsign : ∀ m : List UInt8, sign (m ++ 0 :: t) = ((sign m).1, (sign m).2 ++ 0 :: t) := by
    intro m
    cases m with
    | nil => rfl
    | cons c m =>
      rw [List.cons_append, sign, sign]
      split_ifs <;> rfl
  have hdrop : (s ++ 0 :: t).dropWhile isspace = s.dropWhile isspace ++ 0 :: t := by
    induction s with
    | nil => rfl
    | cons c s ih =>
      rw [List.cons_append]
      by_cases hc : isspace c
      · rw [List.dropWhile_cons_of_pos hc, List.dropWhile_cons_of_pos hc, ih]
      · rw [List.dropWhile_cons_of_neg hc, List.dropWhile_cons_of_neg hc, List.cons_append]
  rw [numeral, hdrop, hsign, numeral]

theorem takeWhile_isdigit_append_zero (s t : List UInt8) :
    (s ++ 0 :: t).takeWhile isdigit = s.takeWhile isdigit := by
  induction s with
  | nil => rfl
  | cons c s ih =>
    rw [List.cons_append]
    by_cases hc : isdigit c
    · rw [List.takeWhile_cons_of_pos hc, List.takeWhile_cons_of_pos hc, ih]
    · rw [List.takeWhile_cons_of_neg hc, List.takeWhile_cons_of_neg hc]

/-- **A number is read** in a string. -/
theorem atoi_append_zero (s t : List UInt8) : atoi (s ++ 0 :: t) = int (number s) := by
  have hle := (List.takeWhile_prefix (p := isdigit) (l := (numeral s).2)).length_le
  rw [atoi, number, number, numeral_append_zero, takeWhile_isdigit_append_zero, if_pos]
  rw [List.length_append, List.length_cons]
  omega

/-- A number in decimal. -/
theorem number_digits {ds : List UInt8} {c : UInt8} (hds : ∀ d ∈ ds, isdigit d) (hne : ds ≠ [])
    (hc : ¬ isdigit c) : number (ds ++ c :: t) = digitsFrom 0 ds := by
  obtain ⟨d, ds, rfl⟩ := List.exists_cons_of_ne_nil hne
  have hd : isspace d = false ∧ d ≠ 45 ∧ d ≠ 43 := by
    have hdigit : ∀ d : UInt8, isdigit d → isspace d = false ∧ d ≠ 45 ∧ d ≠ 43 := by
      decide +kernel
    exact hdigit d (hds d List.mem_cons_self)
  have hnum : numeral (d :: ds ++ c :: t) = (false, d :: ds ++ c :: t) := by
    rw [numeral, List.cons_append, List.dropWhile_cons_of_neg (by simp [hd.1]), sign,
      if_neg hd.2.1, if_neg hd.2.2]
  have hdigits : (d :: ds ++ c :: t).takeWhile isdigit = d :: ds := by
    rw [List.takeWhile_append_of_pos hds, List.takeWhile_cons_of_neg hc, List.append_nil]
  rw [number, hnum, if_neg Bool.false_ne_true, hdigits]

theorem decimalNat_ne_nil (n : ℕ) : decimalNat n ≠ [] := by
  rw [decimalNat]
  split_ifs with hn
  · exact List.cons_ne_nil 48 []
  · simpa [Nat.digits_eq_nil_iff_eq_zero] using hn

theorem isdigit_of_mem_decimalNat {n : ℕ} {c : UInt8} (h : c ∈ decimalNat n) : isdigit c := by
  rw [decimalNat] at h
  split_ifs at h with hn
  · rw [List.mem_singleton.mp h]
    decide
  · obtain ⟨d, hd, rfl⟩ := List.mem_map.mp h
    have hlt : d < 10 := Nat.digits_lt_base (by decide) (List.mem_reverse.mp hd)
    interval_cases d <;> decide

/-- **A number that is printed** is the one that its digits stand for. -/
theorem digitsFrom_decimalNat (n : ℕ) : digitsFrom 0 (decimalNat n) = n := by
  rw [decimalNat]
  split_ifs with hn
  · rw [hn]
    rfl
  · have hdigit : ∀ l : List ℕ, (∀ d ∈ l, d < 10) →
        digitsFrom 0 (l.reverse.map fun d => UInt8.ofNat (48 + d)) = Nat.ofDigits 10 l := by
      intro l hl
      induction l with
      | nil => rfl
      | cons d l ih =>
        obtain ⟨hd, hl⟩ := List.forall_mem_cons.mp hl
        have hval : (UInt8.ofNat (48 + d)).toNat - 48 = d := by
          interval_cases d <;> rfl
        have hih := ih hl
        rw [digitsFrom] at hih ⊢
        rw [List.reverse_cons, List.map_append, List.foldl_append, hih, List.map_singleton,
          List.foldl_cons, List.foldl_nil, hval, Nat.ofDigits_cons]
        omega
    rw [hdigit _ fun d hd => Nat.digits_lt_base (by decide) hd, Nat.ofDigits_digits]

theorem length_decimal_le {n : ℤ} (h : intMin ≤ n ∧ n ≤ intMax) : (decimal n).length ≤ 11 := by
  have hnat : (decimalNat n.natAbs).length ≤ 10 := by
    rw [decimalNat]
    split_ifs with hn
    · decide
    · rw [List.length_map, List.length_reverse]
      refine (Nat.digits_length_le_iff (by decide) _).mpr ?_
      have hbounds : -2147483648 ≤ n ∧ n ≤ 2147483647 := h
      omega
  rw [decimal]
  split_ifs
  · exact Nat.succ_le_succ hnat
  · exact hnat.trans (Nat.le_succ 10)

theorem zero_notMem_decimal (n : ℤ) : 0 ∉ decimal n := by
  have hnat : 0 ∉ decimalNat n.natAbs := fun h =>
    absurd (isdigit_of_mem_decimalNat h) (by decide)
  rw [decimal]
  split_ifs
  · exact fun h => (List.mem_cons.mp h).elim (by decide) hnat
  · exact hnat

end Cpp

end Candcpp
