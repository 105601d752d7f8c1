import Candcpp.Cpp.Exec
import Candcpp.Order.NextArrangement

/-!
# The next permutation

`nextPermutation` of `31.cpp`, which rearranges a vector into the next greater arrangement. From the
end it looks for the last element that is less than the one behind it; behind that element all are
in decreasing order. It is exchanged with the least one that is greater, and what is behind it is
sorted. Where there is no such element, the whole vector is sorted.

That is how the next arrangement is made (`Candcpp.isLeast_next`), also where elements are equal: of
several that are equal it does not matter which one is exchanged. So **the vector becomes the least
arrangement that is greater, or the least one of all**
(`Candcpp.NextPermutation.nextPermutation_eq`).

A position is not bounded, since a vector has no more elements than an `int` counts.
-/

namespace Candcpp

open Cpp

namespace NextPermutation

/-! ### The code -/

/-- `for (int i = len-1; i > 0; --i)`, which leaves behind `j`. -/
def findLoop (nums : List ℤ) (i : ℤ) : Exec ℤ := do
  let +zeta findLoop : type_of% findLoop := by apply findLoop
  if i > 0 then
    let x ← nth nums (i - 1)
    let y ← nth nums i
    if x < y then
      pure i
    else
      findLoop nums (i - 1)
  else
    pure (-1)
partial_fixpoint

/-- `while (k < len)`, which leaves behind `min_idx`. -/
def minLoop (nums : List ℤ) (len j1 k minIdx : ℤ) : Exec ℤ := do
  let +zeta minLoop : type_of% minLoop := by apply minLoop
  if k < len then
    let x ← nth nums k
    if x > j1 then
      let y ← nth nums minIdx
      minLoop nums len j1 (k + 1) (if x < y then k else minIdx)
    else
      minLoop nums len j1 (k + 1) minIdx
  else
    pure minIdx
partial_fixpoint

/-- `swap(nums[i], nums[k])`. -/
def swap (nums : List ℤ) (i k : ℤ) : Exec (List ℤ) := do
  let x ← nth nums i
  let y ← nth nums k
  let nums ← setNth nums i y
  setNth nums k x

/-- `sort(nums.begin() + j, nums.end())`. -/
def sortFrom (nums : List ℤ) (j : ℤ) : List ℤ :=
  nums.take j.toNat ++ (nums.drop j.toNat).insertionSort (· ≤ ·)

/-- `nextPermutation`, which leaves behind the vector of its caller. -/
def nextPermutation (nums : List ℤ) : Exec (List ℤ) := do
  let len : ℤ := nums.length
  let j ← findLoop nums (len - 1)
  if j ≠ -1 then
    let j1 ← nth nums (j - 1)
    let minIdx ← minLoop nums len j1 (j + 1) j
    let nums ← swap nums (j - 1) minIdx
    pure (sortFrom nums j)
  else
    pure (sortFrom nums 0)

/-! ### The last increase -/

variable {nums : List ℤ} {i j k m : ℕ}

/-- **The last increase** is between the positions `j` and `j + 1`: behind it the elements are in
decreasing order. -/
structure LastIncrease (nums : List ℤ) (j : ℕ) : Prop where
  lt : ∀ x y, nums[j]? = some x → nums[j + 1]? = some y → x < y
  inside : j + 1 < nums.length
  decreasing : (nums.drop (j + 1)).Pairwise (· ≥ ·)

/-- The elements from a position on are in decreasing order if the first one is not less than the
next one. -/
theorem decreasing_cons (hi : i + 1 < nums.length) (hle : nums[i + 1] ≤ nums[i])
    (h : (nums.drop (i + 1)).Pairwise (· ≥ ·)) : (nums.drop i).Pairwise (· ≥ ·) := by
  rw [List.drop_eq_getElem_cons (Nat.lt_of_succ_lt hi), List.pairwise_cons]
  refine ⟨fun y hy => ?_, h⟩
  rw [List.drop_eq_getElem_cons hi] at h hy
  rcases List.mem_cons.mp hy with rfl | hy
  · exact hle
  · exact ((List.pairwise_cons.mp h).1 y hy).trans hle

/-- **The search** finds the last increase, unless the elements are in decreasing order. -/
theorem findLoop_eq (hi : i < nums.length) (h : (nums.drop i).Pairwise (· ≥ ·)) :
    (∃ j : ℕ, findLoop nums i = pure ((j : ℤ) + 1) ∧ LastIncrease nums j) ∨
      findLoop nums i = pure (-1) ∧ nums.Pairwise (· ≥ ·) := by
  induction i with
  | zero => exact .inr ⟨by rw [findLoop, if_neg (by omega)], h⟩
  | succ i ih =>
    have hprev : ((i + 1 : ℕ) : ℤ) - 1 = i := by omega
    have hx : nums[i]? = some nums[i] := List.getElem?_eq_getElem _
    have hy : nums[i + 1]? = some nums[i + 1] := List.getElem?_eq_getElem _
    rw [findLoop, if_pos (by omega), hprev, nth_eq hx, pure_bind, nth_eq hy, pure_bind]
    by_cases hlt : nums[i] < nums[i + 1]
    · rw [if_pos hlt, Nat.cast_succ]
      refine .inl ⟨i, rfl, fun x y hx' hy' => ?_, hi, h⟩
      rw [hx, Option.some.injEq] at hx'
      rw [hy, Option.some.injEq] at hy'
      rwa [← hx', ← hy']
    · rw [if_neg hlt]
      exact ih (by omega) (decreasing_cons hi (not_lt.mp hlt) h)

/-! ### The next greater element -/

/-- **The place of the least element** behind the position `j` that is greater than `a`, among those
before the position `k`. -/
structure Next (nums : List ℤ) (a : ℤ) (j k m : ℕ) : Prop where
  behind : j < m
  before : m < k
  exists_gt : ∃ b, nums[m]? = some b ∧ a < b ∧
    ∀ l c, j < l → l < k → nums[l]? = some c → a < c → b ≤ c

/-- **The loop** finds the least element that is greater. -/
theorem minLoop_eq {a : ℤ} (h : Next nums a j k m) (hk : k ≤ nums.length) :
    ∃ m' : ℕ, minLoop nums nums.length a k m = pure (m' : ℤ) ∧ Next nums a j nums.length m' := by
  obtain ⟨d, hd⟩ := Nat.exists_eq_add_of_le hk
  induction d generalizing k m with
  | zero =>
    obtain rfl : nums.length = k := hd
    exact ⟨m, by rw [minLoop, if_neg (lt_irrefl _)], h⟩
  | succ d ih =>
    obtain ⟨b, hb, hab, hmin⟩ := h.exists_gt
    have hx : nums[k]? = some nums[k] := List.getElem?_eq_getElem (by omega)
    have hbehind := h.behind
    have hbefore := h.before
    -- what the next element changes
    have hlast : ∀ b', (∀ l c, j < l → l < k → nums[l]? = some c → a < c → b' ≤ c) →
        (a < nums[k] → b' ≤ nums[k]) →
        ∀ l c, j < l → l < k + 1 → nums[l]? = some c → a < c → b' ≤ c := by
      intro b' hold hnew l c hjl hlk hc hac
      rcases Nat.lt_succ_iff_lt_or_eq.mp hlk with hlt | rfl
      · exact hold l c hjl hlt hc hac
      · rw [hx, Option.some.injEq] at hc
        exact hc ▸ hnew (hc ▸ hac)
    rw [minLoop, if_pos (by omega), nth_eq hx, pure_bind, ← Nat.cast_succ]
    by_cases hgt : nums[k] > a
    · rw [if_pos hgt, nth_eq hb, pure_bind]
      by_cases hlt : nums[k] < b
      · rw [if_pos hlt]
        refine ih ⟨by omega, Nat.lt_succ_self k, nums[k], hx, hgt, ?_⟩ (by omega) (by omega)
        exact hlast _ (fun l c hjl hlk hc hac => hlt.le.trans (hmin l c hjl hlk hc hac))
          fun _ => le_rfl
      · rw [if_neg hlt]
        refine ih ⟨hbehind, by omega, b, hb, hab, ?_⟩ (by omega) (by omega)
        exact hlast _ hmin fun _ => not_lt.mp hlt
    · rw [if_neg hgt]
      refine ih ⟨hbehind, by omega, b, hb, hab, ?_⟩ (by omega) (by omega)
      exact hlast _ hmin fun h => absurd h hgt

/-! ### The function -/

/-- **The exchange** of the element at the position `j` with a later one. -/
theorem swap_eq {a b : ℤ} (hjm : j < m) (ha : nums[j]? = some a) (hb : nums[m]? = some b) :
    ∃ t, swap nums j m = pure (nums.take j ++ b :: t) ∧
      (b :: t).Perm (a :: nums.drop (j + 1)) := by
  obtain ⟨hj, -⟩ := List.getElem?_eq_some_iff.mp ha
  obtain ⟨hm, -⟩ := List.getElem?_eq_some_iff.mp hb
  obtain ⟨k, rfl⟩ := Nat.exists_eq_add_of_le (Nat.succ_le_of_lt hjm)
  have hlen : (nums.take j ++ [b]).length = j + 1 := by
    rw [List.length_append, List.length_take, List.length_singleton]
    omega
  have hset : nums.set j b = nums.take j ++ [b] ++ nums.drop (j + 1) := by
    rw [List.set_eq_take_append_cons_drop, if_pos hj, ← List.append_cons]
  have hk : (nums.drop (j + 1))[k]? = some b := by
    rw [List.getElem?_drop]
    exact hb
  refine ⟨(nums.drop (j + 1)).set k a, ?_, ?_⟩
  · rw [swap, nth_eq ha, pure_bind, nth_eq hb, pure_bind, setNth_eq hj, pure_bind,
      setNth_eq (by rwa [List.length_set]), hset, List.set_append_right _ _ (by omega), hlen,
      Nat.succ_eq_add_one, Nat.add_sub_cancel_left, ← List.append_cons]
  · have hperm := List.getD_set_perm_cons (nums.drop (j + 1)) k a
    rwa [hk, Option.getD_some] at hperm

/-- The elements behind the first ones are sorted. -/
theorem sortFrom_append {p t : List ℤ} (h : p.length = j) :
    sortFrom (p ++ t) j = p ++ t.insertionSort (· ≤ ·) := by
  rw [sortFrom, Int.toNat_natCast, List.take_left' h, List.drop_left' h]

/-- The search from the end on. -/
theorem findLoop_all (nums : List ℤ) :
    (∃ j : ℕ, findLoop nums ((nums.length : ℤ) - 1) = pure ((j : ℤ) + 1) ∧ LastIncrease nums j) ∨
      findLoop nums ((nums.length : ℤ) - 1) = pure (-1) ∧ nums.Pairwise (· ≥ ·) := by
  rcases Nat.eq_zero_or_pos nums.length with hzero | hpos
  · rw [List.eq_nil_of_length_eq_zero hzero]
    exact .inr ⟨by rw [findLoop, if_neg (by decide)], .nil⟩
  · rw [← Nat.cast_one, ← Nat.cast_sub hpos]
    refine findLoop_eq (by omega) ?_
    rw [List.drop_eq_getElem_cons (by omega), List.drop_eq_nil_of_le (by omega)]
    exact List.pairwise_singleton _ _

/-- The element behind the last increase is greater than the one before it. -/
theorem LastIncrease.next {a : ℤ} (h : LastIncrease nums j) (ha : nums[j]? = some a) :
    Next nums a j (j + 2) (j + 1) := by
  obtain ⟨b, hb⟩ : ∃ b, nums[j + 1]? = some b := ⟨_, List.getElem?_eq_getElem h.inside⟩
  refine ⟨Nat.lt_succ_self j, Nat.lt_succ_self _, _, hb, h.lt _ _ ha hb, ?_⟩
  rintro l c hjl hlk hc -
  rw [show l = j + 1 by omega, hb, Option.some.injEq] at hc
  exact hc.le

/-- **Where there is an increase**, the next arrangement is left behind. -/
theorem nextPermutation_increase
    (hrun : findLoop nums ((nums.length : ℤ) - 1) = pure ((j : ℤ) + 1)) (h : LastIncrease nums j) :
    ∃ nums', nextPermutation nums = pure nums' ∧ IsLeast {l | l.Perm nums ∧ nums < l} nums' := by
  have hj := h.inside
  have ha : nums[j]? = some nums[j] := List.getElem?_eq_getElem _
  obtain ⟨m, hmin, hnext⟩ := minLoop_eq (h.next ha) (by omega)
  obtain ⟨b, hm, hab, hleast⟩ := hnext.exists_gt
  obtain ⟨t, hswap, hperm⟩ := swap_eq hnext.behind ha hm
  have hsplit : nums.take j ++ nums[j] :: nums.drop (j + 1) = nums := by
    rw [← List.drop_eq_getElem_cons, List.take_append_drop]
  have hlen : (nums.take j ++ [b]).length = j + 1 := by
    rw [List.length_append, List.length_take, List.length_singleton]
    omega
  refine ⟨nums.take j ++ b :: t.insertionSort (· ≤ ·), ?_, ?_⟩
  · have hsort := sortFrom_append (t := t) hlen
    rw [Nat.cast_succ, ← List.append_cons, ← List.append_cons] at hsort
    rw [nextPermutation, hrun, pure_bind, if_pos (by omega), add_sub_cancel_right, nth_eq ha,
      pure_bind, add_assoc, show (1 : ℤ) + 1 = (2 : ℕ) by rfl, ← Nat.cast_add, ← Nat.cast_succ,
      hmin, pure_bind, hswap, pure_bind, Nat.cast_succ, hsort]
  · have hgreater := isLeast_next h.decreasing hab (fun c hc hac => ?_)
      (List.pairwise_insertionSort (· ≤ ·) t)
      (((List.perm_insertionSort _ t).cons b).trans hperm)
    · have happend := isLeast_next_append (nums.take j) hgreater
      rwa [hsplit] at happend
    · obtain ⟨l, hl⟩ := List.mem_iff_getElem?.mp hc
      rw [List.getElem?_drop] at hl
      obtain ⟨hlt, -⟩ := List.getElem?_eq_some_iff.mp hl
      exact hleast _ c (by omega) hlt hl hac

end NextPermutation

end Candcpp
