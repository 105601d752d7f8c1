import Candcpp.Cpp.Map
import Candcpp.Algorithm.ThreeSum

/-!
# Two numbers with a given sum

The three versions of `twoSum` of `1.cpp`, which look for two positions of a vector whose values
have a given sum. `twoSum_bf` tries all pairs. `twoSum` keeps a table from the values it has met to
their positions, in which the position of a value is overwritten when the value comes again.
`twoSum_tp` sorts the vector, looks for the values from both ends, and then for their positions in
the vector as it was. Each position it comes to is taken for one of the two values only, so that it
finds two positions also where the values are equal (`Candcpp.TwoSum.findLoop_eq`).

**Each of them returns two different positions with the sum, or none if there are none**, and all
three the same ones if there are no others (`Candcpp.TwoSum.same_pair`).

The arithmetic is exact. A position is not bounded, since a vector has no more elements than an
`int` counts.
-/

namespace Candcpp

open Cpp

open ThreeSum (vals nth_vals getElem?_eq_vals increasing_sorted)

namespace TwoSum

/-! ### The code -/

/-- `for (int j = 0; j < nums.size(); ++j)` of `twoSum_bf`: what it returns, if it does. -/
def jLoop (nums : List ℤ) (target i j : ℤ) : Exec (Option (List ℤ)) := do
  let +zeta jLoop : type_of% jLoop := by apply jLoop
  if j < nums.length then
    if j = i then
      jLoop nums target i (j + 1)
    else
      let y ← nth nums j
      let x ← nth nums i
      if y + x = target then
        pure (some [i, j])
      else
        jLoop nums target i (j + 1)
  else
    pure none
partial_fixpoint

/-- `for (int i = 0; i < nums.size(); ++i)` of `twoSum_bf`. -/
def iLoop (nums : List ℤ) (target i : ℤ) : Exec (List ℤ) := do
  let +zeta iLoop : type_of% iLoop := by apply iLoop
  if i < nums.length then
    match ← jLoop nums target i 0 with
    | some ans => pure ans
    | none => iLoop nums target (i + 1)
  else
    pure []
partial_fixpoint

/-- `twoSum_bf`. -/
def twoSumBf (nums : List ℤ) (target : ℤ) : Exec (List ℤ) := iLoop nums target 0

/-- `for (int i = 0; i < nums.size(); ++i)` of `twoSum`. -/
def tableLoop (nums : List ℤ) (target i : ℤ) (hashtable : Map ℤ ℤ) : Exec (List ℤ) := do
  let +zeta tableLoop : type_of% tableLoop := by apply tableLoop
  if i < nums.length then
    let x ← nth nums i
    match hashtable (target - x) with
    | some k => pure [k, i]
    | none => tableLoop nums target (i + 1) (hashtable.insert x i)
  else
    pure []
partial_fixpoint

/-- `twoSum`. -/
def twoSum (nums : List ℤ) (target : ℤ) : Exec (List ℤ) := tableLoop nums target 0 Map.empty

/-- `!flag && original[i] == nums[l]`. -/
def equalUnless (flag : Bool) (original nums : List ℤ) (i l : ℤ) : Exec Bool := do
  if flag then
    pure false
  else
    let x ← nth original i
    let y ← nth nums l
    pure (decide (x = y))

/-- `for (int i = 0; i < nums.size(); ++i)` of `twoSum_tp`. -/
def findLoop (original nums : List ℤ) (l r i : ℤ) (flag flag2 : Bool) (ans : List ℤ) :
    Exec (List ℤ) := do
  let +zeta findLoop : type_of% findLoop := by apply findLoop
  if i < nums.length then
    if ← equalUnless flag original nums i l then
      findLoop original nums l r (i + 1) true flag2 (ans ++ [i])
    else
      let found ← equalUnless flag2 original nums i r
      let ans := if found then ans ++ [i] else ans
      let flag2 := flag2 || found
      if flag && flag2 then
        pure ans
      else
        findLoop original nums l r (i + 1) flag flag2 ans
  else
    pure ans
partial_fixpoint

/-- `while (l < r)`. -/
def pairLoop (original nums : List ℤ) (target l r : ℤ) : Exec (List ℤ) := do
  let +zeta pairLoop : type_of% pairLoop := by apply pairLoop
  if l < r then
    let x ← nth nums l
    let y ← nth nums r
    if x + y = target then
      findLoop original nums l r 0 false false []
    else if x + y < target then
      pairLoop original nums target (l + 1) r
    else
      pairLoop original nums target l (r - 1)
  else
    pure []
partial_fixpoint

/-- `twoSum_tp`, which leaves behind the vector of its caller. -/
def twoSumTp (nums : List ℤ) (target : ℤ) : Exec (List ℤ × List ℤ) := do
  let original := nums
  let nums := nums.insertionSort (· ≤ ·)
  let ans ← pairLoop original nums target 0 (nums.length - 1)
  pure (ans, nums)

/-! ### Right answers -/

/-- Two different positions whose values have the sum `target`. -/
def Pair (nums : List ℤ) (target : ℤ) (i j : ℕ) : Prop :=
  i ≠ j ∧ ∃ x y, nums[i]? = some x ∧ nums[j]? = some y ∧ x + y = target

/-- **A right answer**: two such positions, or none exactly if there are none. -/
structure Answers (nums : List ℤ) (target : ℤ) (ans : List ℤ) : Prop where
  eq_nil_iff : ans = [] ↔ ∀ i j, ¬ Pair nums target i j
  pair : ans ≠ [] → ∃ i j : ℕ, ans = [(i : ℤ), (j : ℤ)] ∧ Pair nums target i j

variable {nums original ans : List ℤ} {target x y : ℤ} {i j k l r p q : ℕ} {table : Map ℤ ℤ}
  {flag : Bool}

theorem Pair.symm (h : Pair nums target i j) : Pair nums target j i := by
  obtain ⟨hne, x, y, hx, hy, hsum⟩ := h
  exact ⟨hne.symm, y, x, hy, hx, by rw [add_comm, hsum]⟩

theorem pair_iff : Pair nums target i j ↔
    i ≠ j ∧ i < nums.length ∧ j < nums.length ∧ vals nums i + vals nums j = target := by
  constructor
  · rintro ⟨hne, x, y, hx, hy, hsum⟩
    obtain ⟨hi, rfl⟩ := getElem?_eq_vals.mp hx
    obtain ⟨hj, rfl⟩ := getElem?_eq_vals.mp hy
    exact ⟨hne, hi, hj, hsum⟩
  · rintro ⟨hne, hi, hj, hsum⟩
    exact ⟨hne, _, _, getElem?_eq_vals.mpr ⟨hi, rfl⟩, getElem?_eq_vals.mpr ⟨hj, rfl⟩, hsum⟩

theorem answers_nil (h : ∀ i j, ¬ Pair nums target i j) : Answers nums target [] :=
  ⟨iff_of_true rfl h, fun hne => absurd rfl hne⟩

theorem answers_pair (h : Pair nums target i j) : Answers nums target [(i : ℤ), (j : ℤ)] :=
  ⟨iff_of_false (List.cons_ne_nil _ _) fun hall => hall i j h, fun _ => ⟨i, j, rfl, h⟩⟩

/-- **Right answers are the same** if there is one pair of positions only. -/
theorem Answers.perm {ans' : List ℤ} (h : Answers nums target ans) (h' : Answers nums target ans')
    (hpair : Pair nums target i j)
    (huniq : ∀ i' j', Pair nums target i' j' → i' = i ∧ j' = j ∨ i' = j ∧ j' = i) :
    ans.Perm ans' := by
  have hall : ∀ a, Answers nums target a → a.Perm [(i : ℤ), (j : ℤ)] := by
    intro a ha
    obtain ⟨i', j', rfl, hp⟩ := ha.pair fun hnil => ha.eq_nil_iff.mp hnil i j hpair
    rcases huniq i' j' hp with ⟨rfl, rfl⟩ | ⟨rfl, rfl⟩
    · exact List.Perm.refl _
    · exact List.Perm.swap _ _ _
  exact (hall ans h).trans (hall ans' h').symm

/-! ### All pairs -/

/-- **The inner loop** finds a second position for the first one, if there is one. -/
theorem jLoop_eq (hi : i < nums.length) (hj : j ≤ nums.length)
    (hno : ∀ k < j, ¬ Pair nums target i k) :
    (jLoop nums target i j = pure none ∧ ∀ k, ¬ Pair nums target i k) ∨
      ∃ k : ℕ, jLoop nums target i j = pure (some [(i : ℤ), (k : ℤ)]) ∧ Pair nums target i k := by
  obtain ⟨d, hn⟩ := Nat.exists_eq_add_of_le hj
  induction d generalizing j with
  | zero =>
    obtain rfl : nums.length = j := hn
    refine .inl ⟨by rw [jLoop, if_neg (lt_irrefl _)], fun k hk => ?_⟩
    exact hno k (pair_iff.mp hk).2.2.1 hk
  | succ d ih =>
    have hjlt : j < nums.length := by omega
    rw [jLoop, if_pos (by omega), ← Nat.cast_succ]
    by_cases hpair : Pair nums target i j
    · obtain ⟨hne, -, -, hsum⟩ := pair_iff.mp hpair
      rw [if_neg (by omega), nth_vals hjlt, pure_bind, nth_vals hi, pure_bind, add_comm,
        if_pos hsum]
      exact .inr ⟨j, rfl, hpair⟩
    · have hnext : ∀ k < j + 1, ¬ Pair nums target i k := by
        intro k hk
        rcases Nat.lt_succ_iff_lt_or_eq.mp hk with hlt | rfl
        · exact hno k hlt
        · exact hpair
      by_cases heq : j = i
      · rw [if_pos (by rw [heq])]
        exact ih (by omega) hnext (by omega)
      · have hsum : ¬ vals nums j + vals nums i = target := fun hsum =>
          hpair (pair_iff.mpr ⟨Ne.symm heq, hi, hjlt, by rw [add_comm, hsum]⟩)
        rw [if_neg (by omega), nth_vals hjlt, pure_bind, nth_vals hi, pure_bind, if_neg hsum]
        exact ih (by omega) hnext (by omega)

theorem iLoop_eq (hi : i ≤ nums.length) (hno : ∀ k < i, ∀ j, ¬ Pair nums target k j) :
    ∃ ans, iLoop nums target i = pure ans ∧ Answers nums target ans := by
  obtain ⟨d, hn⟩ := Nat.exists_eq_add_of_le hi
  induction d generalizing i with
  | zero =>
    obtain rfl : nums.length = i := hn
    refine ⟨[], by rw [iLoop, if_neg (lt_irrefl _)], answers_nil fun k j hk => ?_⟩
    exact hno k (pair_iff.mp hk).2.1 j hk
  | succ d ih =>
    have hi' : i < nums.length := by omega
    have hzero : ∀ k < 0, ¬ Pair nums target i k := fun k hk => absurd hk (Nat.not_lt_zero k)
    have hjloop := jLoop_eq hi' (Nat.zero_le _) hzero
    rw [Nat.cast_zero] at hjloop
    rw [iLoop, if_pos (by omega), ← Nat.cast_succ]
    obtain ⟨hrun, hnone⟩ | ⟨k, hrun, hpair⟩ := hjloop
    · rw [hrun, pure_bind]
      refine ih (by omega) (fun k hk => ?_) (by omega)
      rcases Nat.lt_succ_iff_lt_or_eq.mp hk with hlt | rfl
      · exact hno k hlt
      · exact hnone
    · rw [hrun, pure_bind]
      exact ⟨_, rfl, answers_pair hpair⟩

/-! ### The table -/

/-- **The table** has a position for each value that has been met. -/
structure Seen (nums : List ℤ) (i : ℕ) (table : Map ℤ ℤ) : Prop where
  of_some : ∀ v k, table v = some k → ∃ j < i, k = (j : ℤ) ∧ vals nums j = v
  of_none : ∀ v, table v = none → ∀ j < i, vals nums j ≠ v

theorem seen_empty (nums : List ℤ) : Seen nums 0 Map.empty where
  of_some := fun _ _ h => nomatch h
  of_none := fun _ _ j hj => absurd hj (Nat.not_lt_zero j)

/-- **One more value** is met, and its position takes the place of an earlier one. -/
theorem Seen.insert (h : Seen nums i table) :
    Seen nums (i + 1) (table.insert (vals nums i) i) where
  of_some := by
    intro v k hv
    rcases Map.of_insert hv with ⟨rfl, rfl⟩ | ⟨-, hold⟩
    · exact ⟨i, Nat.lt_succ_self i, rfl, rfl⟩
    · obtain ⟨j, hj, hk⟩ := h.of_some v k hold
      exact ⟨j, hj.trans (Nat.lt_succ_self i), hk⟩
  of_none := by
    intro v hv j hj
    have hne : v ≠ vals nums i := by
      rintro rfl
      rw [Map.insert_self] at hv
      cases hv
    rw [Map.insert_of_ne _ _ hne] at hv
    rcases Nat.lt_succ_iff_lt_or_eq.mp hj with hlt | rfl
    · exact h.of_none v hv j hlt
    · exact hne.symm

theorem tableLoop_eq (hi : i ≤ nums.length) (hseen : Seen nums i table)
    (hno : ∀ j < i, ∀ k < i, ¬ Pair nums target j k) :
    ∃ ans, tableLoop nums target i table = pure ans ∧ Answers nums target ans := by
  obtain ⟨d, hn⟩ := Nat.exists_eq_add_of_le hi
  induction d generalizing i table with
  | zero =>
    obtain rfl : nums.length = i := hn
    refine ⟨[], by rw [tableLoop, if_neg (lt_irrefl _)], answers_nil fun j k hpair => ?_⟩
    obtain ⟨-, hj, hk, -⟩ := pair_iff.mp hpair
    exact hno j hj k hk hpair
  | succ d ih =>
    have hilt : i < nums.length := by omega
    rw [tableLoop, if_pos (by omega), nth_vals hilt, pure_bind, ← Nat.cast_succ]
    cases htable : table (target - vals nums i) with
    | some k =>
      obtain ⟨j, hj, rfl, hval⟩ := hseen.of_some _ _ htable
      exact ⟨_, rfl, answers_pair (pair_iff.mpr ⟨hj.ne, hj.trans hilt, hilt, by omega⟩)⟩
    | none =>
      -- a pair with the new position would have its other value in the table
      have hnew : ∀ j < i, ¬ Pair nums target j i := by
        intro j hj hpair
        obtain ⟨-, -, -, hsum⟩ := pair_iff.mp hpair
        exact hseen.of_none _ htable j hj (by omega)
      refine ih (by omega) hseen.insert (fun j hj k hk => ?_) (by omega)
      rcases Nat.lt_succ_iff_lt_or_eq.mp hj with hj | rfl
      · rcases Nat.lt_succ_iff_lt_or_eq.mp hk with hk | rfl
        · exact hno j hj k hk
        · exact hnew j hj
      · rcases Nat.lt_succ_iff_lt_or_eq.mp hk with hk | rfl
        · exact fun hpair => hnew k hk hpair.symm
        · exact fun hpair => hpair.1 rfl

/-! ### The positions of two values -/

theorem equalUnless_true (original nums : List ℤ) (i l : ℤ) :
    equalUnless true original nums i l = pure false := rfl

theorem equalUnless_false (hi : i < original.length) (hl : l < nums.length) :
    equalUnless false original nums i l = pure (decide (vals original i = vals nums l)) := by
  rw [equalUnless, if_neg Bool.false_ne_true, nth_vals hi, pure_bind, nth_vals hl, pure_bind]

section Find

variable (hlen : original.length = nums.length) (hl : l < nums.length) (hr : r < nums.length)

/-- Nothing is left to find. -/
theorem findLoop_done (original nums : List ℤ) (l r i : ℤ) (ans : List ℤ) :
    findLoop original nums l r i true true ans = pure ans := by
  rw [findLoop]
  split_ifs
  · rfl
  · rfl

include hlen hr in
/-- The second value is left to find. -/
theorem findLoop_right (hp : i ≤ p) (hplt : p < nums.length)
    (hval : vals original p = vals nums r) (ans : List ℤ) :
    ∃ k : ℕ, findLoop original nums l r i true false ans = pure (ans ++ [(k : ℤ)]) ∧ i ≤ k ∧
      k < nums.length ∧ vals original k = vals nums r := by
  obtain ⟨d, rfl⟩ := Nat.exists_eq_add_of_le hp
  induction d generalizing i with
  | zero =>
    have hnow : vals original i = vals nums r := hval
    rw [findLoop, if_pos (by omega), equalUnless_true, pure_bind, equalUnless_false (by omega) hr,
      pure_bind, decide_eq_true hnow]
    exact ⟨i, rfl, le_rfl, hplt, hnow⟩
  | succ d ih =>
    rw [findLoop, if_pos (by omega), equalUnless_true, pure_bind, equalUnless_false (by omega) hr,
      pure_bind, ← Nat.cast_succ]
    by_cases hnow : vals original i = vals nums r
    · rw [decide_eq_true hnow]
      exact ⟨i, rfl, le_rfl, by omega, hnow⟩
    · rw [decide_eq_false hnow]
      obtain ⟨k, hrun, hk, hrest⟩ := ih (i := i + 1) (by omega) (by omega)
        (by rw [← hval]; congr 1; omega)
      exact ⟨k, hrun, by omega, hrest⟩

include hlen hl in
/-- The first value is left to find. -/
theorem findLoop_left (hp : i ≤ p) (hplt : p < nums.length)
    (hval : vals original p = vals nums l) (ans : List ℤ) :
    ∃ k : ℕ, findLoop original nums l r i false true ans = pure (ans ++ [(k : ℤ)]) ∧ i ≤ k ∧
      k < nums.length ∧ vals original k = vals nums l := by
  obtain ⟨d, rfl⟩ := Nat.exists_eq_add_of_le hp
  induction d generalizing i with
  | zero =>
    have hnow : vals original i = vals nums l := hval
    rw [findLoop, if_pos (by omega), equalUnless_false (by omega) hl, pure_bind,
      decide_eq_true hnow, if_pos rfl, findLoop_done]
    exact ⟨i, rfl, le_rfl, hplt, hnow⟩
  | succ d ih =>
    rw [findLoop, if_pos (by omega), equalUnless_false (by omega) hl, pure_bind, ← Nat.cast_succ]
    by_cases hnow : vals original i = vals nums l
    · rw [decide_eq_true hnow, if_pos rfl, findLoop_done]
      exact ⟨i, rfl, le_rfl, by omega, hnow⟩
    · rw [decide_eq_false hnow, if_neg Bool.false_ne_true, equalUnless_true, pure_bind]
      obtain ⟨k, hrun, hk, hrest⟩ := ih (i := i + 1) (by omega) (by omega)
        (by rw [← hval]; congr 1; omega)
      exact ⟨k, hrun, by omega, hrest⟩

include hlen hl hr in
/-- **The positions of the two values** are different, also where the values are equal. -/
theorem findLoop_eq (hpq : p ≠ q) (hp : i ≤ p) (hq : i ≤ q) (hplt : p < nums.length)
    (hqlt : q < nums.length) (hpval : vals original p = vals nums l)
    (hqval : vals original q = vals nums r) :
    ∃ j k : ℕ, findLoop original nums l r i false false [] = pure [(j : ℤ), (k : ℤ)] ∧ j ≠ k ∧
      j < nums.length ∧ k < nums.length ∧
      vals original j + vals original k = vals nums l + vals nums r := by
  obtain ⟨d, hn⟩ : ∃ d, nums.length = i + 1 + d := Nat.exists_eq_add_of_le (by omega)
  induction d generalizing i with
  | zero => omega
  | succ d ih =>
    rw [findLoop, if_pos (by omega), equalUnless_false (by omega) hl, pure_bind, ← Nat.cast_succ]
    by_cases hleft : vals original i = vals nums l
    · -- the first value is found, and the second one is behind it
      obtain ⟨q', hq', hq'lt, hq'val⟩ : ∃ q', i + 1 ≤ q' ∧ q' < nums.length ∧
          vals original q' = vals nums r := by
        rcases Nat.eq_or_lt_of_le hq with rfl | hlt
        · exact ⟨p, by omega, hplt, by rw [hpval, ← hleft, hqval]⟩
        · exact ⟨q, hlt, hqlt, hqval⟩
      obtain ⟨k, hrun, hk, hklt, hkval⟩ :=
        findLoop_right hlen hr (l := l) hq' hq'lt hq'val [(i : ℤ)]
      rw [decide_eq_true hleft, if_pos rfl]
      exact ⟨i, k, hrun, by omega, by omega, hklt, by rw [hleft, hkval]⟩
    · have hpi : i ≠ p := fun h => hleft (h ▸ hpval)
      rw [decide_eq_false hleft, if_neg Bool.false_ne_true, equalUnless_false (by omega) hr,
        pure_bind]
      by_cases hright : vals original i = vals nums r
      · obtain ⟨k, hrun, hk, hklt, hkval⟩ :=
          findLoop_left hlen hl (r := r) (i := i + 1) (by omega) hplt hpval [(i : ℤ)]
        rw [decide_eq_true hright]
        exact ⟨i, k, hrun, by omega, by omega, hklt, by rw [hright, hkval, add_comm]⟩
      · have hqi : i ≠ q := fun h => hright (h ▸ hqval)
        rw [decide_eq_false hright]
        exact ih (i := i + 1) (by omega) (by omega) (by omega)

end Find

/-! ### Both ends -/

/-- The vector that has been sorted has the same pairs of values. -/
theorem exists_pair_iff (hperm : nums.Perm original) :
    (∃ i j, Pair nums target i j ∧ vals nums i = x ∧ vals nums j = y) ↔
      ∃ i j, Pair original target i j ∧ vals original i = x ∧ vals original j = y := by
  have hiff : ∀ l : List ℤ, (∃ i j, Pair l target i j ∧ vals l i = x ∧ vals l j = y) ↔
      [x, y].Subperm l ∧ x + y = target := by
    intro l
    rw [pair_subperm_iff]
    constructor
    · rintro ⟨i, j, ⟨hne, x, y, hx, hy, hsum⟩, rfl, rfl⟩
      obtain ⟨-, rfl⟩ := getElem?_eq_vals.mp hx
      obtain ⟨-, rfl⟩ := getElem?_eq_vals.mp hy
      exact ⟨⟨i, j, hne, hx, hy⟩, hsum⟩
    · rintro ⟨⟨i, j, hne, hx, hy⟩, hsum⟩
      exact ⟨i, j, ⟨hne, x, y, hx, hy, hsum⟩, (getElem?_eq_vals.mp hx).2,
        (getElem?_eq_vals.mp hy).2⟩
  rw [hiff, hiff, hperm.subperm_left]

/-- The pairs of positions in any order. -/
theorem not_pair_of_sums (h : ∀ x y, ¬ Sums (vals nums) target 0 (nums.length - 1) x y) (i j : ℕ) :
    ¬ Pair nums target i j := by
  have hlt : ∀ i j, i < j → ¬ Pair nums target i j := by
    intro i j hij hpair
    obtain ⟨-, -, hj, hsum⟩ := pair_iff.mp hpair
    exact h _ _ ⟨i, j, ⟨Nat.zero_le i, hij, by omega⟩, rfl, rfl, hsum⟩
  intro hpair
  rcases Nat.lt_or_gt_of_ne hpair.1 with hij | hij
  · exact hlt i j hij hpair
  · exact hlt j i hij hpair.symm

/-- **The loop** moves one of the ends, as long as the sum is another one. -/
theorem pairLoop_eq (hperm : nums.Perm original) (hd : Increasing (vals nums) nums.length)
    (hr : r < nums.length) (hall : ∀ x y, Sums (vals nums) target 0 (nums.length - 1) x y →
      Sums (vals nums) target l r x y) :
    ∃ ans, pairLoop original nums target l r = pure ans ∧ Answers original target ans := by
  induction hm : r - l generalizing l r with
  | zero =>
    refine ⟨[], by rw [pairLoop, if_neg (by omega)], answers_nil fun i j hpair => ?_⟩
    obtain ⟨i', j', hpair', -⟩ := (exists_pair_iff hperm).mpr ⟨i, j, hpair, rfl, rfl⟩
    exact not_pair_of_sums (fun x y hxy => not_sums (by omega) (hall x y hxy)) i' j' hpair'
  | succ d ih =>
    have hlr : l < r := by omega
    rw [pairLoop, if_pos (by omega), nth_vals (hlr.trans hr), pure_bind, nth_vals hr, pure_bind]
    rcases lt_trichotomy (vals nums l + vals nums r) target with hlt | heq | hgt
    · rw [if_neg hlt.ne, if_pos hlt, ← Nat.cast_succ]
      exact ih hr (fun x y hxy => (sums_left hd hr hlt).mp (hall x y hxy)) (by omega)
    · have hpair : Pair nums target l r := pair_iff.mpr ⟨hlr.ne, hlr.trans hr, hr, heq⟩
      obtain ⟨p, q, hpq, hp, hq⟩ := (exists_pair_iff hperm).mp ⟨l, r, hpair, rfl, rfl⟩
      obtain ⟨hne, hplt, hqlt, -⟩ := pair_iff.mp hpq
      rw [← hperm.length_eq] at hplt hqlt
      obtain ⟨j, k, hrun, hjk, hj, hk, hsum⟩ := findLoop_eq hperm.length_eq.symm (hlr.trans hr) hr
        hne (Nat.zero_le p) (Nat.zero_le q) hplt hqlt hp hq
      rw [Nat.cast_zero] at hrun
      rw [hperm.length_eq] at hj hk
      rw [if_pos heq, hrun]
      exact ⟨_, rfl, answers_pair (pair_iff.mpr ⟨hjk, hj, hk, hsum.trans heq⟩)⟩
    · obtain ⟨r, rfl⟩ : ∃ q, r = q + 1 := ⟨r - 1, by omega⟩
      rw [if_neg hgt.ne', if_neg (not_lt.mpr hgt.le), Nat.cast_succ, add_sub_cancel_right]
      exact ih (by omega) (fun x y hxy => (sums_right hd hr hgt).mp (hall x y hxy)) (by omega)

/-! ### The three versions -/

theorem twoSumBf_eq (nums : List ℤ) (target : ℤ) :
    ∃ ans, twoSumBf nums target = pure ans ∧ Answers nums target ans :=
  iLoop_eq (Nat.zero_le _) fun k hk => absurd hk (Nat.not_lt_zero k)

theorem twoSum_eq (nums : List ℤ) (target : ℤ) :
    ∃ ans, twoSum nums target = pure ans ∧ Answers nums target ans :=
  tableLoop_eq (Nat.zero_le _) (seen_empty nums) fun j hj => absurd hj (Nat.not_lt_zero j)

theorem twoSumTp_eq (nums : List ℤ) (target : ℤ) : ∃ ans,
    twoSumTp nums target = pure (ans, nums.insertionSort (· ≤ ·)) ∧ Answers nums target ans := by
  have hperm := List.perm_insertionSort (· ≤ ·) nums
  have hlen := hperm.length_eq
  rw [twoSumTp]
  rcases Nat.eq_zero_or_pos nums.length with hzero | hpos
  · obtain rfl := List.length_eq_zero_iff.mp hzero
    refine ⟨[], ?_, answers_nil fun i j hpair => absurd (pair_iff.mp hpair).2.1 (Nat.not_lt_zero i)⟩
    rw [pairLoop, if_neg (by simp), pure_bind]
  · obtain ⟨ans, hrun, hans⟩ := pairLoop_eq (l := 0)
      (r := (nums.insertionSort (· ≤ ·)).length - 1) hperm (increasing_sorted nums) (by omega)
      fun x y hxy => hxy
    rw [Nat.cast_zero, Nat.cast_sub (by omega), Nat.cast_one] at hrun
    rw [hrun, pure_bind]
    exact ⟨ans, rfl, hans⟩

/-- **All three versions** return two different positions with the sum, or none if there are none;
the same ones, if there are no others. -/
theorem same_pair (nums : List ℤ) (target : ℤ) : ∃ a b c nums',
    twoSumBf nums target = pure a ∧ twoSum nums target = pure b ∧
      twoSumTp nums target = pure (c, nums') ∧
      Answers nums target a ∧ Answers nums target b ∧ Answers nums target c ∧
      ∀ i j, Pair nums target i j →
        (∀ i' j', Pair nums target i' j' → i' = i ∧ j' = j ∨ i' = j ∧ j' = i) →
          a.Perm b ∧ b.Perm c := by
  obtain ⟨a, hbf, ha⟩ := twoSumBf_eq nums target
  obtain ⟨b, htable, hb⟩ := twoSum_eq nums target
  obtain ⟨c, htp, hc⟩ := twoSumTp_eq nums target
  exact ⟨a, b, c, _, hbf, htable, htp, ha, hb, hc, fun i j hpair huniq =>
    ⟨ha.perm hb hpair huniq, hb.perm hc hpair huniq⟩⟩

end TwoSum

end Candcpp
