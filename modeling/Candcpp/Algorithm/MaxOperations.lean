import Candcpp.Cpp.Exec
import Candcpp.Order.Steps

/-!
# Sliding the ones to the right

`Solution::maxOperations` and `Solution::maxOperations_ls` of `3228.cpp`. A move takes a one that
has a zero behind it, and slides it over all the zeros that follow; the question is how many moves
can be made.

Count the ones before each block of zeros that has a one before it (`Candcpp.MaxOperations.total`).
A move that slides a one to the one before it takes one off this sum; where there is no one directly
before it the two blocks become one, and the move takes off more
(`Candcpp.MaxOperations.total_move`). `maxOperations` makes the moves from the left, so that all the
ones before the one that is moved stand next to it, and **it makes as many moves as the sum says**
(`Candcpp.MaxOperations.moveLoop_iff`).

`maxOperations_ls` adds the sum up, but it does not look at the last character: it misses a block
that consists of this character alone (`Candcpp.MaxOperations.countLoop_iff`).

A string is a list of bits, of which `true` is `'1'`. A position, and a number of characters, is not
checked for overflow: a string has at most as many characters as an `int` counts. The moves are
counted in an `int`.
-/

namespace Candcpp

open Cpp

namespace MaxOperations

/-! ### The code -/

/-- A string over `'1'` and `'0'`. -/
abbrev Bits := List Bool

/-- `myswap(s, i, j)`. -/
def myswap (s : Bits) (i j : ℤ) : Exec Bits := do
  let t ← nth s i
  let c ← nth s j
  let s ← setNth s i c
  setNth s j t

/-- `while (j < s.size() && s[j] == '0')`. -/
def slideLoop (s : Bits) (j : ℤ) : Exec Bits := do
  let +zeta slideLoop : type_of% slideLoop := by apply slideLoop
  if j < s.length then
    let c ← nth s j
    if c = false then
      let s ← myswap s (j - 1) j
      slideLoop s (j + 1)
    else
      pure s
  else
    pure s
partial_fixpoint

section Code

variable (arith : ℤ → Exec ℤ)

/-- The `for` loop of `maxOperations`, which returns `cnt`. -/
def moveLoop (s : Bits) (i cnt : ℤ) : Exec ℤ := do
  let +zeta moveLoop : type_of% moveLoop := by apply moveLoop
  if i + 1 < s.length then
    let c ← nth s i
    let next ← nth s (i + 1)
    if c = true ∧ next = false then
      let cnt ← arith (cnt + 1)
      let s ← slideLoop s (i + 1)
      moveLoop s (if i - 1 ≥ 0 then i - 1 else 0) cnt
    else
      moveLoop s (i + 1) cnt
  else
    pure cnt
partial_fixpoint

/-- `maxOperations`. -/
def maxOperations (s : Bits) : Exec ℤ := moveLoop arith s 0 0

/-- The `for` loop of `maxOperations_ls`, which returns `ans`. -/
def countLoop (s : Bits) (i cnt1 ans : ℤ) : Exec ℤ := do
  let +zeta countLoop : type_of% countLoop := by apply countLoop
  if i + 1 < s.length then
    let c ← nth s i
    if c = true then
      countLoop s (i + 1) (cnt1 + 1) ans
    else if i > 0 then
      let last ← nth s (i - 1)
      if last = true then
        let ans ← arith (ans + cnt1)
        countLoop s (i + 1) cnt1 ans
      else
        countLoop s (i + 1) cnt1 ans
    else
      countLoop s (i + 1) cnt1 ans
  else
    pure ans
partial_fixpoint

/-- `maxOperations_ls`. -/
def maxOperationsLs (s : Bits) : Exec ℤ := countLoop arith s 0 0 0

end Code

/-! ### The moves -/

/-- **A move**: a one slides over the zeros behind it, up to the next one or to the end. -/
inductive Move : Bits → Bits → Prop
  | slide (pre rest : Bits) (k : ℕ) (hrest : rest.head? ≠ some false) :
    Move (pre ++ true :: (List.replicate (k + 1) false ++ rest))
      (pre ++ (List.replicate (k + 1) false ++ true :: rest))

/-- The sum, over the blocks of zeros behind a one, of the number of ones before the block, when
`ones` ones come before, and `last` is the character directly before. -/
def total : ℕ → Bool → Bits → ℕ
  | _, _, [] => 0
  | ones, _, true :: s => total (ones + 1) true s
  | ones, last, false :: s => (if last then ones else 0) + total ones false s

variable {s pre rest m : Bits} {i a b k ones : ℕ} {last : Bool}

theorem total_append (ones : ℕ) (last : Bool) (s m : Bits) :
    total ones last (s ++ m) =
      total ones last s + total (ones + s.count true) (s.getLastD last) m := by
  induction s generalizing ones last with
  | nil => simp [total]
  | cons c s ih =>
    cases c with
    | true =>
      rw [List.cons_append, total, ih, total, List.count_cons_self, List.getLastD_cons]
      congr 2
      omega
    | false =>
      rw [List.cons_append, total, ih, total, List.count_cons_of_ne (by decide),
        List.getLastD_cons, add_assoc]

/-- Zeros behind a zero count nothing. -/
theorem total_zeros (ones k : ℕ) (s : Bits) :
    total ones false (List.replicate k false ++ s) = total ones false s := by
  induction k with
  | zero => rfl
  | succ k ih => simpa [List.replicate_succ, total] using ih

/-- A block of zeros counts once. -/
theorem total_block (ones k : ℕ) (last : Bool) (s : Bits) :
    total ones last (List.replicate (k + 1) false ++ s) =
      (if last then ones else 0) + total ones false s := by
  rw [List.replicate_succ, List.cons_append, total, total_zeros]

/-- Ones are counted. -/
theorem total_ones (ones b : ℕ) (last : Bool) (s : Bits) :
    total ones last (List.replicate (b + 1) true ++ s) = total (ones + (b + 1)) true s := by
  induction b generalizing ones last with
  | zero => rfl
  | succ b ih =>
    rw [List.replicate_succ, List.cons_append, total, ih]
    congr 1
    omega

/-- What is directly before the next one does not matter. -/
theorem total_of_head (h : s.head? ≠ some false) (ones : ℕ) (last last' : Bool) :
    total ones last s = total ones last' s := by
  match s, h with
  | [], _ => rfl
  | true :: s, _ => rfl
  | false :: s, h => exact absurd rfl h

/-- **A move** takes one off the sum, or, where there is no one directly before, all the ones up to
the one that is moved. -/
theorem total_move (hrest : rest.head? ≠ some false) (pre : Bits) (k : ℕ) :
    total 0 false (pre ++ (List.replicate (k + 1) false ++ true :: rest)) +
        (if pre.getLastD false then 1 else pre.count true + 1) =
      total 0 false (pre ++ true :: (List.replicate (k + 1) false ++ rest)) := by
  rw [total_append 0 false pre, total_append 0 false pre, total_block, total, total, total_block,
    total_of_head hrest _ false true]
  simp only [if_true]
  split_ifs
  · omega
  · omega

/-- **Each move takes at least one off the sum.** -/
theorem Move.total_lt (h : Move s m) : total 0 false m + 1 ≤ total 0 false s := by
  obtain ⟨pre, rest, k, hrest⟩ := h
  rw [← total_move hrest pre k]
  split_ifs
  · exact le_rfl
  · omega

/-- There are not more moves than the sum says. -/
theorem steps_le_total {n : ℕ} (h : Steps Move n s m) : n ≤ total 0 false s := by
  have hle := h.add_le (f := fun s => (total 0 false s : ℤ)) fun a b hab => by
    exact_mod_cast hab.total_lt
  omega

/-! ### The simulation -/

theorem myswap_eq (pre rest : Bits) (c d : Bool) :
    myswap (pre ++ c :: d :: rest) pre.length (pre.length + 1 : ℕ) =
      pure (pre ++ d :: c :: rest) := by
  have hc : (pre ++ c :: d :: rest)[pre.length]? = some c := by simp
  have hd : (pre ++ c :: d :: rest)[pre.length + 1]? = some d := by simp
  rw [myswap, nth_eq hc, pure_bind, nth_eq hd, pure_bind, setNth_eq (by simp), pure_bind,
    setNth_eq (by simp)]
  simp

/-- **The inner loop** slides the one over the zeros. -/
theorem slideLoop_eq (hrest : rest.head? ≠ some false) (pre : Bits) (k : ℕ) :
    slideLoop (pre ++ true :: (List.replicate k false ++ rest)) (pre.length + 1 : ℕ) =
      pure (pre ++ (List.replicate k false ++ true :: rest)) := by
  induction k generalizing pre with
  | zero =>
    rw [slideLoop]
    match rest, hrest with
    | [], _ => rw [if_neg (by simp)]; rfl
    | true :: rest, _ =>
      have hread : (pre ++ true :: (List.replicate 0 false ++ true :: rest))[pre.length + 1]? =
        some true := by simp
      rw [if_pos (by simp), nth_eq hread]
      rfl
    | false :: rest, h => exact absurd rfl h
  | succ k ih =>
    have hread : (pre ++ true :: (List.replicate (k + 1) false ++ rest))[pre.length + 1]? =
      some false := by simp [List.replicate_succ]
    have hprev : ((pre.length + 1 : ℕ) : ℤ) - 1 = pre.length := by push_cast; ring
    have hnext : ((pre.length + 1 : ℕ) : ℤ) + 1 = ((pre ++ [false]).length + 1 : ℕ) := by simp
    rw [slideLoop, if_pos (by simp; omega), nth_eq hread, pure_bind, if_pos rfl, hprev, hnext,
      List.replicate_succ, List.cons_append, myswap_eq, pure_bind]
    simpa using ih (pre ++ [false])

/-- What the simulation has in front of it: after zeros and then ones up to its position, the rest
of the string. -/
def front (a b : ℕ) (m : Bits) : Bits := List.replicate a false ++ (List.replicate b true ++ m)

theorem front_true (a b : ℕ) (m : Bits) : front a b (true :: m) = front a (b + 1) m := by
  rw [front, front, List.replicate_succ', List.append_assoc, List.singleton_append]

theorem front_false (a : ℕ) (m : Bits) : front a 0 (false :: m) = front (a + 1) 0 m := by
  rw [front, front, List.replicate_succ', List.append_assoc]
  rfl

theorem length_front (a b : ℕ) (m : Bits) : (front a b m).length = a + b + m.length := by
  simp [front, add_assoc]

/-- The character at the position of the simulation. -/
theorem getElem?_front (hab : 1 ≤ a + b) (m : Bits) :
    (front a b m)[a + b - 1]? = some (decide (0 < b)) := by
  rcases Nat.eq_zero_or_pos b with rfl | hb
  · rw [front, List.getElem?_append_left (by simp; omega), List.getElem?_replicate,
      if_pos (by omega)]
    rfl
  · rw [front, List.getElem?_append_right (by simp; omega),
      List.getElem?_append_left (by simp; omega), List.getElem?_replicate,
      if_pos (by simp; omega), decide_eq_true hb]

/-- The next one. -/
theorem getElem?_front_next (a b : ℕ) (c : Bool) (m : Bits) :
    (front a b (c :: m))[a + b]? = some c := by
  rw [front, List.getElem?_append_right (by simp), List.getElem?_append_right (by simp)]
  simp

/-- Nothing can be moved where no zero comes after a one. -/
theorem total_front_nil (a b : ℕ) : total 0 false (front a b []) = 0 := by
  rw [front, total_zeros]
  cases b with
  | zero => rfl
  | succ b => rw [total_ones, total]

/-- The zeros at the beginning of a string. -/
theorem exists_block (m : Bits) :
    ∃ k rest, m = List.replicate k false ++ rest ∧ rest.head? ≠ some false := by
  induction m with
  | nil => exact ⟨0, [], rfl, by simp⟩
  | cons c m ih =>
    cases c with
    | true => exact ⟨0, true :: m, rfl, by simp⟩
    | false =>
      obtain ⟨k, rest, rfl, hrest⟩ := ih
      exact ⟨k + 1, rest, rfl, hrest⟩

/-- **The leftmost move** takes exactly one off the sum: all ones before the one that is moved stand
directly before it. -/
theorem total_front_move (hrest : rest.head? ≠ some false) (a b k : ℕ) :
    total 0 false (front a b (List.replicate (k + 1) false ++ true :: rest)) + 1 =
      total 0 false (front a (b + 1) (List.replicate (k + 1) false ++ rest)) := by
  have hmove := total_move hrest (List.replicate a false ++ List.replicate b true) k
  rw [← front_true]
  simp only [front, ← List.append_assoc] at hmove ⊢
  rw [← hmove]
  congr 1
  rcases Nat.eq_zero_or_pos b with rfl | hb
  · have hnone : (List.replicate a false ++ List.replicate 0 true).count true = 0 := by
      simp [List.count_replicate]
    rw [hnone, ite_self]
  · have hlast : (List.replicate a false ++ List.replicate b true).getLastD false = true := by
      simp [List.getLastD_eq_getLast?, List.getLast?_replicate, hb.ne']
    rw [if_pos hlast]

/-! ### The loops -/

section Loops

variable {arith : ℤ → Exec ℤ} {fits : ℤ → Prop} {cnt r : ℤ}

/-- Where the simulation goes after a move. -/
theorem exists_front (a b k : ℕ) (rest : Bits) : ∃ a' b' m, 1 ≤ a' + b' ∧
    front a b (List.replicate (k + 1) false ++ true :: rest) = front a' b' m ∧
      (if ((a + (b + 1) - 1 : ℕ) : ℤ) - 1 ≥ 0 then ((a + (b + 1) - 1 : ℕ) : ℤ) - 1 else 0) =
        (a' + b' - 1 : ℕ) := by
  rcases Nat.eq_zero_or_pos (a + b) with hzero | hpos
  · obtain ⟨rfl, rfl⟩ : a = 0 ∧ b = 0 := by omega
    exact ⟨1, 0, List.replicate k false ++ true :: rest, le_rfl, rfl, rfl⟩
  · refine ⟨a, b, _, hpos, rfl, ?_⟩
    split_ifs with hge
    · omega
    · omega

/-- A turn of the loop that makes a move. -/
theorem moveLoop_move (arith : ℤ → Exec ℤ) (hrest : rest.head? ≠ some false) (a b k : ℕ) (cnt : ℤ) :
    ∃ a' b' m, 1 ≤ a' + b' ∧
      front a b (List.replicate (k + 1) false ++ true :: rest) = front a' b' m ∧
      moveLoop arith (front a (b + 1) (List.replicate (k + 1) false ++ rest))
          (a + (b + 1) - 1 : ℕ) cnt =
        arith (cnt + 1) >>= moveLoop arith (front a' b' m) (a' + b' - 1 : ℕ) := by
  obtain ⟨a', b', m, hab, hfront, hpos⟩ := exists_front a b k rest
  refine ⟨a', b', m, hab, hfront, ?_⟩
  have hread := getElem?_front (show 1 ≤ a + (b + 1) by omega)
    (List.replicate (k + 1) false ++ rest)
  have hnext :
      (front a (b + 1) (List.replicate (k + 1) false ++ rest))[a + (b + 1)]? = some false :=
    getElem?_front_next a (b + 1) false (List.replicate k false ++ rest)
  have hcast : ((a + (b + 1) - 1 : ℕ) : ℤ) + 1 = (a + (b + 1) : ℕ) := by omega
  -- the characters in front of the one that is moved
  have hsplit : front a (b + 1) (List.replicate (k + 1) false ++ rest) =
      (List.replicate a false ++ List.replicate b true) ++
        true :: (List.replicate (k + 1) false ++ rest) := by
    rw [← front_true, front, List.append_assoc]
  have hslide := slideLoop_eq hrest (List.replicate a false ++ List.replicate b true) (k + 1)
  rw [← hsplit, List.append_assoc, ← front, hfront, List.length_append, List.length_replicate,
    List.length_replicate, add_assoc] at hslide
  rw [moveLoop, if_pos (by rw [hcast, length_front]; simp; omega), nth_eq hread, pure_bind, hcast,
    nth_eq hnext, pure_bind, if_pos (by simp)]
  simp only [hslide, pure_bind, hpos]

/-- A turn of the loop that goes on to the next character. -/
theorem moveLoop_next (hab : 1 ≤ a + b) {c : Bool} (hc : c = true ∨ b = 0) (m : Bits) (cnt : ℤ) :
    moveLoop arith (front a b (c :: m)) (a + b - 1 : ℕ) cnt =
      moveLoop arith (front a b (c :: m)) (a + b : ℕ) cnt := by
  have hcast : ((a + b - 1 : ℕ) : ℤ) + 1 = (a + b : ℕ) := by omega
  rw [moveLoop, if_pos (by rw [hcast, length_front]; simp), nth_eq (getElem?_front hab _),
    pure_bind, hcast, nth_eq (getElem?_front_next a b c m), pure_bind, if_neg]
  rintro ⟨hb, rfl⟩
  rcases hc with hc | rfl
  · cases hc
  · simp at hb

/-- **The simulation makes as many moves as the sum says**, and returns if their number fits. -/
theorem moveLoop_iff (harith : Arithmetic arith fits) (hcnt : 0 ≤ cnt) (hfits : fits cnt)
    (hab : 1 ≤ a + b) (m : Bits) :
    moveLoop arith (front a b m) (a + b - 1 : ℕ) cnt = pure r ↔
      fits (cnt + total 0 false (front a b m)) ∧ cnt + total 0 false (front a b m) = r := by
  induction hN : total 0 false (front a b m) using Nat.strong_induction_on
    generalizing a b m cnt with
  | _ N ihN =>
    induction m generalizing a b with
    | nil =>
      rw [total_front_nil] at hN
      subst hN
      rw [moveLoop, if_neg (by rw [length_front]; simp; omega), Exec.pure_inj, Nat.cast_zero,
        add_zero, and_iff_right hfits]
    | cons c m ihm =>
      cases c with
      | true =>
        rw [moveLoop_next hab (.inl rfl), front_true]
        rw [front_true] at hN
        exact ihm (a := a) (b := b + 1) (by omega) hN
      | false =>
        rcases b with _ | b
        · rw [moveLoop_next hab (.inr rfl), front_false]
          rw [front_false] at hN
          exact ihm (a := a + 1) (b := 0) (by omega) hN
        · obtain ⟨k, rest, rfl, hrest⟩ := exists_block m
          obtain ⟨a', b', m', hab', hfront, hturn⟩ :=
            moveLoop_move arith hrest a b k cnt
          have hmove := total_front_move hrest a b k
          rw [hfront] at hmove
          change total 0 false (front a (b + 1) (List.replicate (k + 1) false ++ rest)) = N at hN
          change moveLoop arith (front a (b + 1) (List.replicate (k + 1) false ++ rest)) _ _ = _ ↔ _
          have hsum : cnt + 1 + (total 0 false (front a' b' m') : ℕ) = cnt + (N : ℕ) := by omega
          rw [hturn, Exec.bind_eq_pure, ← hsum]
          constructor
          · rintro ⟨cnt', hinc, hrun⟩
            obtain ⟨hfit, rfl⟩ := (harith.eq_pure _ _).mp hinc
            exact (ihN _ (by omega) (by omega) hfit hab' m' rfl).mp hrun
          · intro h
            have hfit := harith.mono (cnt + 1) _ (by omega) (by omega) h.1
            exact ⟨_, harith.eq hfit, (ihN _ (by omega) (by omega) hfit hab' m' rfl).mpr h⟩

theorem maxOperations_eq_pure (harith : Arithmetic arith fits) (hfits : fits 0) (s : Bits) :
    maxOperations arith s = pure r ↔ fits (total 0 false s) ∧ total 0 false s = r := by
  match s with
  | [] =>
    rw [maxOperations, moveLoop, if_neg (by simp), Exec.pure_inj, total, Nat.cast_zero,
      and_iff_right hfits]
  | true :: m =>
    have h := moveLoop_iff (r := r) harith le_rfl hfits (show 1 ≤ 0 + 1 by omega) m
    simp only [zero_add] at h
    exact h
  | false :: m =>
    have h := moveLoop_iff (r := r) harith le_rfl hfits (show 1 ≤ 1 + 0 by omega) m
    simp only [zero_add] at h
    exact h

/-- The character in front of a position. -/
theorem getElem?_last (h : pre ≠ []) (m : Bits) :
    (pre ++ m)[pre.length - 1]? = some (pre.getLastD false) := by
  have hlen := List.length_pos_iff.mpr h
  rw [List.getElem?_append_left (by omega), ← List.getLast?_eq_getElem?,
    List.getLast?_eq_some_getLast h, List.getLastD_eq_getLast?, List.getLast?_eq_some_getLast h]
  rfl

/-- A turn of the loop at a zero: the ones are added where a one is in front of it. -/
theorem countLoop_zero (pre m : Bits) (d : Bool) (cnt1 ans : ℤ) :
    countLoop arith (pre ++ false :: d :: m) pre.length cnt1 ans =
      (if pre.getLastD false then arith (ans + cnt1) else pure ans) >>=
        countLoop arith (pre ++ false :: d :: m) (pre.length + 1) cnt1 := by
  have hread : (pre ++ false :: d :: m)[pre.length]? = some false := by simp
  rw [countLoop, if_pos (by simp), nth_eq hread, pure_bind, if_neg (by decide)]
  rcases eq_or_ne pre [] with rfl | hne
  · rw [if_neg (by simp)]
    rfl
  · have hlen := List.length_pos_iff.mpr hne
    have hcast : (pre.length : ℤ) - 1 = (pre.length - 1 : ℕ) := by omega
    rw [if_pos (by omega), hcast, nth_eq (getElem?_last hne _), pure_bind]
    split_ifs
    · rfl
    · rfl

/-- **What `maxOperations_ls` adds up**: the sum, without the last character. -/
theorem countLoop_iff (harith : Arithmetic arith fits) {ans : ℤ} (hans : 0 ≤ ans)
    (hfits : fits ans) (pre m : Bits) :
    countLoop arith (pre ++ m) pre.length (pre.count true) ans = pure r ↔
      fits (ans + total (pre.count true) (pre.getLastD false) m.dropLast) ∧
        ans + total (pre.count true) (pre.getLastD false) m.dropLast = r := by
  induction m generalizing pre ans with
  | nil =>
    rw [countLoop, if_neg (by simp), Exec.pure_inj]
    simp [total, hfits]
  | cons c m ih =>
    cases m with
    | nil =>
      rw [countLoop, if_neg (by simp), Exec.pure_inj]
      simp [total, hfits]
    | cons d m =>
      have hcast : (pre.length : ℤ) + 1 = (pre ++ [c]).length := by simp
      have hnext : pre ++ c :: d :: m = (pre ++ [c]) ++ d :: m := by simp
      rw [List.dropLast_cons_cons]
      cases c with
      | true =>
        have hread : (pre ++ true :: d :: m)[pre.length]? = some true := by simp
        have hcount : (pre.count true : ℤ) + 1 = (pre ++ [true]).count true := by simp
        rw [countLoop, if_pos (by simp), nth_eq hread, pure_bind, if_pos rfl, hcast, hcount,
          hnext, ih hans hfits (pre ++ [true])]
        simp [total]
      | false =>
        have hcount : (pre ++ [false]).count true = pre.count true := by simp
        have hlast : (pre ++ [false]).getLastD false = false := by simp
        have hrest : ∀ ans, 0 ≤ ans → fits ans →
            (countLoop arith (pre ++ false :: d :: m) (pre.length + 1) (pre.count true) ans =
                pure r ↔
              fits (ans + total (pre.count true) false (d :: m).dropLast) ∧
                ans + total (pre.count true) false (d :: m).dropLast = r) := by
          intro ans hans hfits
          have h := ih hans hfits (pre ++ [false])
          rwa [← hnext, ← hcast, hlast, hcount] at h
        rw [countLoop_zero, total]
        cases pre.getLastD false with
        | false =>
          rw [if_neg (by decide), if_neg (by decide), pure_bind, hrest ans hans hfits, zero_add]
        | true =>
          rw [if_pos rfl, if_pos rfl, Exec.bind_eq_pure, Nat.cast_add, ← add_assoc]
          constructor
          · rintro ⟨ans', hadd, hrun⟩
            obtain ⟨hfit, rfl⟩ := (harith.eq_pure _ _).mp hadd
            exact (hrest _ (by omega) hfit).mp hrun
          · intro h
            have hfit := harith.mono (ans + pre.count true) _ (by omega) (by omega) h.1
            exact ⟨_, harith.eq hfit, (hrest _ (by omega) hfit).mpr h⟩

theorem maxOperationsLs_eq_pure (harith : Arithmetic arith fits) (hfits : fits 0) (s : Bits) :
    maxOperationsLs arith s = pure r ↔
      fits (total 0 false s.dropLast) ∧ total 0 false s.dropLast = r := by
  have h := countLoop_iff (r := r) harith le_rfl hfits [] s
  simp only [zero_add] at h
  exact h

end Loops

/-! ### The results -/

/-- Every string is one to which the leftmost move can be made, or no move at all. -/
theorem front_cases (a b : ℕ) (m : Bits) : (∃ a' b', front a b m = front a' b' []) ∨
    ∃ a' b' k rest, rest.head? ≠ some false ∧
      front a b m = front a' (b' + 1) (List.replicate (k + 1) false ++ rest) := by
  induction m generalizing a b with
  | nil => exact .inl ⟨a, b, rfl⟩
  | cons c m ih =>
    cases c with
    | true =>
      rw [front_true]
      exact ih a (b + 1)
    | false =>
      rcases b with _ | b
      · rw [front_false]
        exact ih (a + 1) 0
      · obtain ⟨k, rest, rfl, hrest⟩ := exists_block m
        exact .inr ⟨a, b, k, rest, hrest, rfl⟩

/-- **As many moves can be made as the sum says.** -/
theorem exists_steps (s : Bits) : ∃ m, Steps Move (total 0 false s) s m := by
  induction hN : total 0 false s generalizing s with
  | zero => exact ⟨s, .done⟩
  | succ N ih =>
    rcases front_cases 0 0 s with ⟨a, b, hs⟩ | ⟨a, b, k, rest, hrest, hs⟩
    · change s = _ at hs
      rw [hs, total_front_nil] at hN
      cases hN
    · change s = _ at hs
      have hmove := total_front_move hrest a b k
      rw [← hs, hN] at hmove
      obtain ⟨m, hm⟩ := ih _ (Nat.succ.inj hmove)
      refine ⟨m, .next ?_ hm⟩
      have hslide := Move.slide (List.replicate a false ++ List.replicate b true) rest k hrest
      rwa [List.append_assoc, List.append_assoc, ← front, ← front, front_true, ← hs] at hslide

/-- The greatest number of moves. -/
theorem isGreatest_total (s : Bits) :
    IsGreatest {n : ℕ | ∃ m, Steps Move n s m} (total 0 false s) := by
  refine ⟨exists_steps s, ?_⟩
  rintro n ⟨m, h⟩
  exact steps_le_total h

/-- **`maxOperations` returns the greatest number of moves**, with integers without bounds, for
every string. -/
theorem maxOperations_isGreatest (s : Bits) : ∃ n : ℕ, maxOperations pure s = pure (n : ℤ) ∧
    IsGreatest {n : ℕ | ∃ m, Steps Move n s m} n :=
  ⟨_, (maxOperations_eq_pure arithmetic_pure trivial s).mpr ⟨trivial, rfl⟩, isGreatest_total s⟩

/-- `maxOperations` returns the greatest number of moves. -/
def Maximal (s : Bits) : Prop := ∃ n : ℕ, maxOperations int s = pure (n : ℤ) ∧
  IsGreatest {n : ℕ | ∃ m, Steps Move n s m} n

theorem fits_zero : intMin ≤ 0 ∧ 0 ≤ intMax := by decide

/-- The number of moves that is counted is an `int` exactly if the sum is. -/
theorem fits_total (s : Bits) :
    (intMin ≤ (total 0 false s : ℤ) ∧ (total 0 false s : ℤ) ≤ intMax) ↔
      (total 0 false s : ℤ) ≤ intMax := by
  refine and_iff_right ?_
  simp only [intMin]
  omega

theorem maxOperations_eq_pure_iff (s : Bits) : (∃ r, maxOperations int s = pure r) ↔
    (total 0 false s : ℤ) ≤ intMax := by
  simp only [maxOperations_eq_pure arithmetic_int fits_zero, fits_total, exists_and_left,
    exists_eq', and_true]

/-- Each of the blocks counts at least the ones at the beginning. -/
theorem le_total_pairs (ones q : ℕ) :
    ones * q ≤ total ones true (List.replicate q [false, true]).flatten := by
  induction q generalizing ones with
  | zero => exact Nat.zero_le _
  | succ q ih =>
    have hrest := ih (ones + 1)
    have hmono : ones * q ≤ (ones + 1) * q := Nat.mul_le_mul_right q (Nat.le_succ ones)
    rw [List.replicate_succ, List.flatten_cons]
    change ones * (q + 1) ≤ ones + total (ones + 1) true (List.replicate q [false, true]).flatten
    rw [Nat.mul_succ]
    omega

/-- `maxOperations_ls` and `maxOperations` return the same number. -/
def SameNumber (s : Bits) : Prop :=
  ∃ r, maxOperationsLs int s = pure r ∧ maxOperations int s = pure r

/-- **The last character** matters exactly where it is a zero behind a one. -/
theorem total_dropLast (s : Bits) :
    total 0 false s.dropLast = total 0 false s ↔ ¬ [true, false] <:+ s := by
  rw [← List.reverse_prefix]
  rcases List.eq_nil_or_concat' s with rfl | ⟨s, c, rfl⟩
  · simp
  rw [List.dropLast_concat, total_append]
  cases c with
  | true => simp [total]
  | false =>
    rcases List.eq_nil_or_concat' s with rfl | ⟨s, d, rfl⟩
    · simp [total]
    · cases d with
      | false => simp [total]
      | true => simp [total]

end MaxOperations

end Candcpp
