import Candcpp.Cpp.Exec
import Candcpp.Order.Bisect
import Candcpp.Order.Repeated

/-!
# The repeated number

Three ways to find the number that occurs more than once among `n + 1` numbers from one to `n`, in
`287.cpp`: a set of the numbers that have been seen, the number of elements up to every value, and
a search by bisection for the first value with too many elements up to it.

The bisection computes `l + r` in an `int`, and the sum overflows where the middle is 2^30 or more.
As long as the search only goes right the middles are `n - n / 2^k`, and when it has once gone left
all further ones are less. So it comes to the repeated number `d` exactly if some `n - n / 2^k` is
not less than `d` and less than 2^30 (`Candcpp.FindDuplicate.Searchable`), and **this is when all
three return it** (`Candcpp.FindDuplicate.findDuplicate_iff`); the other two always do.

A vector has at most as many elements as an `int` counts.
-/

namespace Candcpp

open Cpp

namespace FindDuplicate

/-! ### The code -/

/-- `for (int num : nums)` of `findDuplicate_my`. -/
def seenLoop (set : Finset ℤ) : List ℤ → ℤ
  | [] => -1
  | num :: nums => if num ∈ set then num else seenLoop (insert num set) nums

/-- `findDuplicate_my`. -/
def findDuplicateMy (nums : List ℤ) : ℤ := seenLoop ∅ nums

/-- `for (int num : nums)` of `findDuplicate_overtime`: the value of `cnt`. -/
def countLoop (i cnt : ℤ) : List ℤ → ℤ
  | [] => cnt
  | num :: nums => countLoop i (if num ≤ i then cnt + 1 else cnt) nums

/-- The first loop of `findDuplicate_overtime`. -/
def cntsLoop (nums : List ℤ) (n : ℤ) (cnts : Arr ℤ) (i : ℤ) : Exec (Arr ℤ) := do
  let +zeta cntsLoop : type_of% cntsLoop := by apply cntsLoop
  if i ≤ n then
    let cnts ← cnts.putInt i (countLoop i 0 nums)
    cntsLoop nums n cnts (i + 1)
  else
    pure cnts
partial_fixpoint

/-- The second loop of `findDuplicate_overtime`. -/
def firstLoop (n : ℤ) (cnts : Arr ℤ) (i : ℤ) : Exec ℤ := do
  let +zeta firstLoop : type_of% firstLoop := by apply firstLoop
  if i ≤ n then
    let cnt ← cnts.getInt i
    if cnt > i then
      pure i
    else
      firstLoop n cnts (i + 1)
  else
    pure (-1)
partial_fixpoint

/-- `findDuplicate_overtime`. -/
def findDuplicateOvertime (nums : List ℤ) : Exec ℤ := do
  let n : ℤ := nums.length - 1
  let cnts ← cntsLoop nums n (Arr.fill (n + 1).toNat 0) 1
  firstLoop n cnts 1

/-- `for (int i = 0; i < n; ++i)` of `findDuplicate`: the value of `cnt`. -/
def cntLoop (nums : List ℤ) (n mid i cnt : ℤ) : Exec ℤ := do
  let +zeta cntLoop : type_of% cntLoop := by apply cntLoop
  if i < n then
    let x ← nth nums i
    cntLoop nums n mid (i + 1) (cnt + if x ≤ mid then 1 else 0)
  else
    pure cnt
partial_fixpoint

/-- `while (l <= r)`. -/
def searchLoop (nums : List ℤ) (n l r ans : ℤ) : Exec ℤ := do
  let +zeta searchLoop : type_of% searchLoop := by apply searchLoop
  if l ≤ r then
    let sum ← int (l + r)
    let mid := sum >>> (1 : ℕ)
    let cnt ← cntLoop nums n mid 0 0
    if cnt ≤ mid then
      searchLoop nums n (mid + 1) r ans
    else
      searchLoop nums n l (mid - 1) mid
  else
    pure ans
partial_fixpoint

/-- `findDuplicate`. -/
def findDuplicate (nums : List ℤ) : Exec ℤ :=
  searchLoop nums nums.length 1 (nums.length - 1) (-1)

/-- The middle of the search after `k` turns, if they have all gone right. -/
def middle (n k : ℕ) : ℤ := n - n / 2 ^ k

/-- **The search comes to the number** without a sum that is too great: a middle of the search as
long as it goes right is not less than the number, and less than 2^30. -/
def Searchable (n : ℕ) (d : ℤ) : Prop := ∃ k, d ≤ middle n k ∧ middle n k < 2 ^ 30

/-! ### The set -/

variable {n : ℕ} {d l r : ℤ} {nums : List ℤ} {found : Option ℤ}

/-- **The loop** returns the first number that has been seen. -/
theorem seenLoop_eq {pre : List ℤ} {s : Finset ℤ} (h : Repeated n d (pre ++ nums))
    (hs : ∀ x, x ∈ s ↔ x ∈ pre) (hnd : pre.Nodup) : seenLoop s nums = d := by
  induction nums generalizing pre s with
  | nil =>
    rw [List.append_nil] at h
    exact absurd ((h.repeated d).mpr rfl) (not_lt.mpr (List.nodup_iff_count_le_one.mp hnd d))
  | cons num nums ih =>
    rw [seenLoop]
    by_cases hmem : num ∈ pre
    · rw [if_pos ((hs num).mpr hmem)]
      refine (h.repeated num).mp ?_
      rw [List.count_append, List.count_cons_self]
      have hpos := List.count_pos_iff.mpr hmem
      omega
    · rw [if_neg (mt (hs num).mp hmem)]
      rw [List.append_cons] at h
      have hnd' : (pre ++ [num]).Nodup :=
        (List.perm_append_singleton num pre).nodup_iff.mpr (List.nodup_cons.mpr ⟨hmem, hnd⟩)
      refine ih h (fun x => ?_) hnd'
      rw [Finset.mem_insert, hs, List.mem_append, List.mem_singleton, or_comm]

/-- `findDuplicateMy` returns the number. -/
theorem findDuplicateMy_eq (h : Repeated n d nums) : findDuplicateMy nums = d :=
  seenLoop_eq (show Repeated n d ([] ++ nums) from h) (by simp) .nil

/-! ### The numbers of elements -/

theorem countLoop_eq (i cnt : ℤ) (nums : List ℤ) :
    countLoop i cnt nums = cnt + nums.countP (· ≤ i) := by
  induction nums generalizing cnt with
  | nil => simp [countLoop]
  | cons num nums ih =>
    rw [countLoop, ih, List.countP_cons]
    by_cases hle : num ≤ i
    · rw [if_pos hle, if_pos (decide_eq_true hle)]
      push_cast
      ring
    · rw [if_neg hle, if_neg (by simpa using hle), Nat.add_zero]

/-- **The first loop** counts the elements up to every value. -/
theorem cntsLoop_eq (nums : List ℤ) (cnts : Arr ℤ) (hsize : cnts.size = n + 1) (i : ℕ)
    (hi : i ≤ n + 1) : ∃ cnts', cntsLoop nums n cnts i = pure cnts' ∧ cnts'.size = n + 1 ∧
      (∀ j < i, cnts'.data j = cnts.data j) ∧
      ∀ j, i ≤ j → j ≤ n → cnts'.data j = nums.countP (· ≤ (j : ℤ)) := by
  obtain ⟨k, hk⟩ := Nat.exists_eq_add_of_le hi
  induction k generalizing i cnts with
  | zero =>
    rw [cntsLoop, if_neg (by omega)]
    exact ⟨cnts, rfl, hsize, fun j _ => rfl, fun j hij hj => by omega⟩
  | succ k ih =>
    obtain ⟨cnts', hrun, hsize', hbelow, habove⟩ :=
      ih { cnts with data := Function.update cnts.data i (countLoop i 0 nums) } hsize (i + 1)
        (by omega) (by omega)
    rw [cntsLoop, if_pos (by omega), Arr.putInt_eq (by omega), pure_bind, ← Nat.cast_succ, hrun]
    refine ⟨cnts', rfl, hsize', fun j hj => ?_, fun j hij hj => ?_⟩
    · rw [hbelow j (by omega)]
      exact Function.update_of_ne (by omega) _ _
    · rcases Nat.eq_or_lt_of_le hij with rfl | hlt
      · rw [hbelow i (by omega), ← zero_add (List.countP _ _ : ℤ), ← countLoop_eq]
        exact Function.update_self _ _ _
      · exact habove j hlt hj

/-- **The second loop** comes to the first value with too many elements up to it. -/
theorem firstLoop_eq (h : Repeated n d nums) {cnts : Arr ℤ} (hsize : cnts.size = n + 1)
    (hcnts : ∀ j, 1 ≤ j → j ≤ n → cnts.data j = nums.countP (· ≤ (j : ℤ))) (i : ℕ) (hi : 1 ≤ i)
    (hd : (i : ℤ) ≤ d) : firstLoop n cnts i = pure d := by
  have hle := h.le
  obtain ⟨k, hk⟩ := Int.le.dest hd
  induction k generalizing i with
  | zero =>
    obtain rfl : d = i := by omega
    have hlt := (h.lt_countP_iff (by omega) hle).mpr le_rfl
    rw [firstLoop, if_pos hle, Arr.getInt_eq (by omega), pure_bind, hcnts i hi (by omega),
      if_pos hlt]
  | succ k ih =>
    have hnot := mt (h.lt_countP_iff (i := i) (by omega) (by omega)).mp (by omega)
    rw [firstLoop, if_pos (by omega), Arr.getInt_eq (by omega), pure_bind, hcnts i hi (by omega),
      if_neg hnot, ← Nat.cast_succ]
    exact ih (i + 1) (by omega) (by omega) (by push_cast; omega)

/-- `findDuplicateOvertime` returns the number. -/
theorem findDuplicateOvertime_eq (h : Repeated n d nums) :
    findDuplicateOvertime nums = pure d := by
  have hsize : (Arr.fill (n + 1 : ℤ).toNat (0 : ℤ)).size = n + 1 := by
    rw [Arr.fill]
    exact Int.toNat_natCast (n + 1)
  obtain ⟨cnts, hrun, hsize', -, hcnts⟩ := cntsLoop_eq nums _ hsize 1 (by omega)
  rw [Nat.cast_one] at hrun
  rw [findDuplicateOvertime, h.length_sub_one, hrun, pure_bind]
  exact firstLoop_eq h hsize' hcnts 1 le_rfl (by exact_mod_cast h.one_le)

/-! ### The bisection -/

/-- **The inner loop** counts the elements up to the middle. -/
theorem cntLoop_eq (nums : List ℤ) (mid cnt : ℤ) (i : ℕ) (hi : i ≤ nums.length) :
    cntLoop nums nums.length mid i cnt = pure (cnt + (nums.drop i).countP (· ≤ mid)) := by
  obtain ⟨k, hk⟩ := Nat.exists_eq_add_of_le hi
  induction k generalizing i cnt with
  | zero =>
    rw [cntLoop, if_neg (by omega), List.drop_eq_nil_of_le (by omega), List.countP_nil]
    simp
  | succ k ih =>
    have hlt : i < nums.length := by omega
    rw [cntLoop, if_pos (by omega), nth_eq (List.getElem?_eq_getElem hlt), pure_bind,
      ← Nat.cast_succ, ih _ (i + 1) hlt (by omega), List.drop_eq_getElem_cons hlt,
      List.countP_cons]
    by_cases hle : nums[i] ≤ mid
    · rw [if_pos hle, if_pos (decide_eq_true hle)]
      push_cast
      rw [add_right_comm, add_assoc]
    · rw [if_neg hle, if_neg (by simpa using hle)]
      simp only [add_zero]

/-- **The elements up to the middle** are too many if the number is among them. -/
theorem exists_count (h : Repeated n d nums) (mid : ℤ) (hmid : 0 ≤ mid) (hle : mid ≤ n) :
    ∃ cnt, cntLoop nums nums.length mid 0 0 = pure cnt ∧ (cnt ≤ mid ↔ ¬ d ≤ mid) := by
  refine ⟨_, cntLoop_eq nums mid 0 0 (Nat.zero_le _), ?_⟩
  rw [List.drop_zero, zero_add, ← h.lt_countP_iff hmid hle, not_lt]

/-- **The search without a sum that is too great** comes to the number. -/
theorem searchLoop_eq (h : Repeated n d nums) (hb : Bracket (d ≤ ·) 1 n l r found)
    (hr : r < 2 ^ 30) : searchLoop nums nums.length l r (found.getD (-1)) = pure d := by
  induction hk : (r + 1 - l).toNat using Nat.strong_induction_on generalizing l r found with
  | _ k ih =>
    have hl := hb.bot_le
    have htop := hb.le_top
    rw [searchLoop]
    by_cases hlr : l ≤ r
    · rw [if_pos hlr, int_eq (by rw [intMin]; omega) (by rw [intMax]; omega), pure_bind]
      have hmid : l ≤ (l + r) >>> (1 : ℕ) ∧ (l + r) >>> (1 : ℕ) ≤ r := by
        rw [Int.shiftRight_eq_div_pow]
        omega
      dsimp only
      generalize (l + r) >>> (1 : ℕ) = mid at hmid ⊢
      obtain ⟨cnt, hrun, hcnt⟩ := exists_count h mid (by omega) (by omega)
      rw [hrun, pure_bind]
      by_cases hd : d ≤ mid
      · rw [if_neg fun hle => hcnt.mp hle hd]
        exact ih _ (by omega) (hb.lower hmid.1 hmid.2 hd) (by omega) rfl
      · rw [if_pos (hcnt.mpr hd)]
        exact ih _ (by omega)
          (hb.raise hmid.1 hmid.2 hd fun a b _ hab ha => ha.trans hab) hr rfl
    · rw [if_neg hlr]
      cases found with
      | none => exact absurd le_rfl (hb.not_ok (not_le.mp hlr) h.one_le h.le)
      | some y =>
        have hleast := hb.isLeast (not_le.mp hlr)
        have hyd : y = d := le_antisymm (hleast.2 ⟨h.one_le, le_rfl⟩) hleast.1.2
        rw [Option.getD_some, hyd]

/-! ### Where the search goes right -/

theorem middle_le (n k : ℕ) : middle n k ≤ n := by
  have hpos : (0 : ℤ) ≤ n / 2 ^ k := by positivity
  rw [middle]
  omega

theorem middle_zero (n : ℕ) : middle n 0 = 0 := by
  rw [middle, pow_zero, Int.ediv_one, sub_self]

/-- **The next middle**, where the lower bound is behind the last one. -/
theorem middle_succ (n k : ℕ) : (middle n k + 1 + n) >>> (1 : ℕ) = middle n (k + 1) := by
  have hdiv : (n : ℤ) / 2 ^ (k + 1) = n / 2 ^ k / 2 := by
    rw [pow_succ, Int.ediv_ediv_of_nonneg (by positivity)]
  rw [Int.shiftRight_eq_div_pow, middle, middle, hdiv]
  omega

theorem middle_mono (n : ℕ) : Monotone (middle n) := by
  refine monotone_nat_of_le_succ fun k => ?_
  have hle := middle_le n k
  rw [← middle_succ, Int.shiftRight_eq_div_pow]
  omega

/-- A middle is greater than the last one, if there is something left. -/
theorem middle_lt_succ {k : ℕ} (h : middle n k < n) : middle n k < middle n (k + 1) := by
  rw [← middle_succ, Int.shiftRight_eq_div_pow]
  omega

/-- **The search as long as it goes right**: it returns the number exactly if some further middle
is not less than it, and less than 2^30. -/
theorem searchLoop_right_iff (h : Repeated n d nums) (k : ℕ) (hk : middle n k < d) :
    searchLoop nums nums.length (middle n k + 1) n (-1) = pure d ↔
      ∃ j, k < j ∧ d ≤ middle n j ∧ middle n j < 2 ^ 30 := by
  have hle := h.le
  have hpos : 0 ≤ middle n k := (middle_zero n).symm.trans_le (middle_mono n (Nat.zero_le k))
  induction hm : (n - middle n k).toNat using Nat.strong_induction_on generalizing k with
  | _ m ih =>
    have hlt := middle_lt_succ (hk.trans_le hle)
    have hnext := middle_le n (k + 1)
    have hsum := middle_succ n k
    have hbracket : Bracket (d ≤ ·) 1 n (middle n k + 1) n none :=
      { bot_le := by omega
        le_succ := by omega
        le_top := le_rfl
        below := fun y _ hy hd => by omega
        above := fun _ hy => nomatch hy
        untouched := fun _ => rfl }
    rw [searchLoop, if_pos (by omega)]
    by_cases hfit : middle n (k + 1) < 2 ^ 30
    · rw [int_eq (by rw [intMin]; omega) (by
        rw [Int.shiftRight_eq_div_pow] at hsum
        rw [intMax]
        omega), pure_bind, hsum]
      obtain ⟨cnt, hrun, hcnt⟩ := exists_count h (middle n (k + 1)) (by omega) hnext
      dsimp only
      rw [hrun, pure_bind]
      by_cases hd : d ≤ middle n (k + 1)
      · rw [if_neg fun hle => hcnt.mp hle hd]
        have hleft := hbracket.lower (show middle n k + 1 ≤ middle n (k + 1) by omega) hnext hd
        exact iff_of_true (searchLoop_eq h hleft (by omega)) ⟨k + 1, Nat.lt_succ_self k, hd, hfit⟩
      · have hright := ih _ (by omega) (k + 1) (not_le.mp hd) (by omega) rfl
        rw [if_pos (hcnt.mpr hd)]
        refine Iff.trans hright ?_
        constructor
        · rintro ⟨j, hj, hrest⟩
          exact ⟨j, by omega, hrest⟩
        · rintro ⟨j, hj, hdj, hj'⟩
          exact ⟨j, Nat.lt_of_le_of_ne hj fun hkj => hd (hkj ▸ hdj), hdj, hj'⟩
    · have hover : int (middle n k + 1 + n) = throw .overflow := by
        rw [Int.shiftRight_eq_div_pow] at hsum
        rw [int, if_neg (by rw [intMin, intMax]; omega)]
      rw [hover]
      refine iff_of_false (fun hp => Exec.pure_ne_throw _ _ hp.symm) ?_
      rintro ⟨j, hj, -, hj'⟩
      exact hfit ((middle_mono n hj).trans_lt hj')

/-- **`findDuplicate` returns the number** where it is searchable. -/
theorem findDuplicate_eq_iff (h : Repeated n d nums) :
    findDuplicate nums = pure d ↔ Searchable n d := by
  have hone := h.one_le
  have hsearch := searchLoop_right_iff h 0 (by rw [middle_zero]; omega)
  rw [middle_zero, zero_add] at hsearch
  rw [findDuplicate, h.length_sub_one, hsearch]
  constructor
  · rintro ⟨j, -, hj⟩
    exact ⟨j, hj⟩
  · rintro ⟨j, hdj, hj⟩
    refine ⟨j, Nat.pos_of_ne_zero ?_, hdj, hj⟩
    rintro rfl
    rw [middle_zero] at hdj
    omega

/-- **All three return the repeated number** exactly if it is searchable. -/
theorem findDuplicate_iff (h : Repeated n d nums) :
    (findDuplicateMy nums = d ∧ findDuplicateOvertime nums = pure d ∧
      findDuplicate nums = pure d) ↔ Searchable n d := by
  rw [findDuplicate_eq_iff h, and_iff_right (findDuplicateMy_eq h),
    and_iff_right (findDuplicateOvertime_eq h)]

/-- Four numbers, of which one is there twice. -/
theorem findDuplicate_iff_three :
    (findDuplicateMy [1, 3, 2, 3] = 3 ∧ findDuplicateOvertime [1, 3, 2, 3] = pure 3 ∧
      findDuplicate [1, 3, 2, 3] = pure 3) ↔ Searchable 3 3 := by
  refine findDuplicate_iff ⟨rfl, by decide, fun x => ?_⟩
  by_cases hx : x ∈ [1, 3, 2, 3]
  · simp only [List.mem_cons, List.not_mem_nil, or_false] at hx
    rcases hx with rfl | rfl | rfl | rfl <;> decide
  · rw [List.count_eq_zero_of_not_mem hx]
    exact iff_of_false (by decide) fun h3 => hx (by simp [h3])

/-- The greatest value as often as there is room for it. -/
theorem repeated_replicate (hn : 1 ≤ n) : Repeated n n (List.replicate (n + 1) (n : ℤ)) where
  length := List.length_replicate
  bounds := fun x hx => by
    rw [List.eq_of_mem_replicate hx]
    exact ⟨by exact_mod_cast hn, le_rfl⟩
  repeated := fun x => by
    by_cases hx : x = n
    · rw [hx, List.count_replicate_self]
      exact iff_of_true (Nat.lt_succ_of_le hn) rfl
    · rw [List.count_eq_zero_of_not_mem fun hmem => hx (List.eq_of_mem_replicate hmem)]
      exact iff_of_false (Nat.not_lt_zero 1) hx

/-- **Not all of them return it always**: among 2^30 + 1 numbers that are all 2^30 the search comes
to the sum of 2^30 and 2^30. -/
theorem not_findDuplicate : ¬ ∀ (n : ℕ) (d : ℤ) (nums : List ℤ), 1 ≤ n → Repeated n d nums →
    findDuplicateMy nums = d ∧ findDuplicateOvertime nums = pure d ∧
      findDuplicate nums = pure d := by
  intro hall
  have h := repeated_replicate (n := 2 ^ 30) Nat.one_le_two_pow
  obtain ⟨k, hdk, hk⟩ := (findDuplicate_eq_iff h).mp (hall _ _ _ Nat.one_le_two_pow h).2.2
  exact lt_irrefl ((2 : ℤ) ^ 30) (by exact_mod_cast hdk.trans_lt hk)

end FindDuplicate

end Candcpp
