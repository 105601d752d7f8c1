import Candcpp.Cpp.Exec
import Candcpp.Order.Lowered

/-!
# The greatest happiness

The two versions of `3075.cpp`, which select `k` children one after the other, where the happiness
of those that are left gets less by one with each selection. `maximumHappinessSum` does this: it
looks for a greatest happiness, makes it `-2`, and lowers the others that are positive.
`maximumHappinessSum_ling` sorts the values, subtracts from each one how many have been selected
before it, and stops where nothing is left of it.

After `t` turns of the first version the values that have not been selected are the sorted ones
from the `t`-th on, less `t` (`Candcpp.MaximumHappinessSum.roundLoop_eq`). So **both versions return
the greatest sum** (`Candcpp.MaximumHappinessSum.same_sum`).

The arithmetic is exact: neither a sum of as many values as an `int` counts, each of them an `int`,
exceeds a `long long`, nor does a value exceed an `int` that only gets less. A position is not
bounded, since a vector has no more elements than an `int` counts.
-/

namespace Candcpp

open Cpp

namespace MaximumHappinessSum

/-! ### The code -/

/-- The first `for (int i = 0; i < happiness.size(); ++i)`, which leaves behind `max_v` and
`max_idx`. -/
def maxLoop (happiness : List ℤ) (i maxV maxIdx : ℤ) : Exec (ℤ × ℤ) := do
  let +zeta maxLoop : type_of% maxLoop := by apply maxLoop
  if i < happiness.length then
    let v ← nth happiness i
    if v > maxV then
      maxLoop happiness (i + 1) v i
    else
      maxLoop happiness (i + 1) maxV maxIdx
  else
    pure (maxV, maxIdx)
partial_fixpoint

/-- The second `for (int i = 0; i < happiness.size(); ++i)`, which leaves behind `happiness`. -/
def lowerLoop (maxIdx i : ℤ) (happiness : List ℤ) : Exec (List ℤ) := do
  let +zeta lowerLoop : type_of% lowerLoop := by apply lowerLoop
  if i < happiness.length then
    if i = maxIdx then
      let happiness ← setNth happiness i (-2)
      lowerLoop maxIdx (i + 1) happiness
    else
      let v ← nth happiness i
      if v > 0 then
        let happiness ← setNth happiness i (v - 1)
        lowerLoop maxIdx (i + 1) happiness
      else
        lowerLoop maxIdx (i + 1) happiness
  else
    pure happiness
partial_fixpoint

/-- `while (k--)`, which leaves behind `ans` and `happiness`. -/
def roundLoop (happiness : List ℤ) (k ans : ℤ) : Exec (ℤ × List ℤ) := do
  let +zeta roundLoop : type_of% roundLoop := by apply roundLoop
  if k ≠ 0 then
    let (maxV, maxIdx) ← maxLoop happiness 0 (-1) (-1)
    let happiness ← lowerLoop maxIdx 0 happiness
    roundLoop happiness (k - 1) (ans + maxV)
  else
    pure (ans, happiness)
partial_fixpoint

/-- `maximumHappinessSum`, which leaves behind the vector of its caller. -/
def maximumHappinessSum (happiness : List ℤ) (k : ℤ) : Exec (ℤ × List ℤ) := roundLoop happiness k 0

/-- `for (int i = 0; i < k && happiness[i] > i; ++i)`, which leaves behind `ans`. -/
def sumLoop (happiness : List ℤ) (k i ans : ℤ) : Exec ℤ := do
  let +zeta sumLoop : type_of% sumLoop := by apply sumLoop
  if i < k then
    let x ← nth happiness i
    if x > i then
      sumLoop happiness k (i + 1) (ans + (x - i))
    else
      pure ans
  else
    pure ans
partial_fixpoint

/-- `maximumHappinessSum_ling`, which leaves behind the vector of its caller. -/
def maximumHappinessSumLing (happiness : List ℤ) (k : ℤ) : Exec (ℤ × List ℤ) := do
  let happiness := happiness.insertionSort (· ≥ ·)
  let ans ← sumLoop happiness k 0 0
  pure (ans, happiness)

/-! ### A turn -/

variable {h l : List ℤ} {i k m : ℕ} {b t v w x : ℤ}

/-- What has been found among the first `i` values: none of them is greater than `v`, and it is the
one at `w` if it is not `-1`. -/
structure Found (h : List ℤ) (i : ℕ) (v w : ℤ) : Prop where
  le : ∀ k < i, ∀ x, h[k]? = some x → x ≤ v
  eq : v = -1 ∨ ∃ m : ℕ, w = m ∧ h[m]? = some v

/-- **The search** for a greatest value. -/
theorem maxLoop_eq (hi : i ≤ h.length) (hf : Found h i v w) :
    ∃ v' w', maxLoop h i v w = pure (v', w') ∧ Found h h.length v' w' := by
  obtain ⟨d, hd⟩ := Nat.exists_eq_add_of_le hi
  induction d generalizing i v w with
  | zero =>
    obtain rfl : h.length = i := hd
    exact ⟨v, w, by rw [maxLoop, if_neg (lt_irrefl _)], hf⟩
  | succ d ih =>
    obtain ⟨x, hx⟩ : ∃ x, h[i]? = some x := ⟨_, List.getElem?_eq_getElem (by omega)⟩
    have hle : ∀ u, v ≤ u → x ≤ u → ∀ k < i + 1, ∀ y, h[k]? = some y → y ≤ u := by
      intro u hv hxu k hk y hy
      rcases Nat.lt_succ_iff_lt_or_eq.mp hk with hlt | rfl
      · exact (hf.le k hlt y hy).trans hv
      · rwa [← Option.some.inj (hx.symm.trans hy)]
    rw [maxLoop, if_pos (by omega), nth_eq hx, pure_bind, ← Nat.cast_succ]
    split_ifs with hgt
    · exact ih (by omega) ⟨hle x hgt.le le_rfl, .inr ⟨i, rfl, hx⟩⟩ (by omega)
    · exact ih (by omega) ⟨hle v le_rfl (not_lt.mp hgt), hf.eq⟩ (by omega)

/-- The values after the one at `m` has been selected. -/
def selected (h : List ℤ) (m : ℕ) : List ℤ := (h.map lowered).set m (-2)

theorem getElem?_selected (h : List ℤ) (hx : h[i]? = some x) (m : ℕ) :
    (selected h m)[i]? = some (if i = m then -2 else lowered x) := by
  have hi := (List.getElem?_eq_some_iff.mp hx).1
  rw [selected]
  split_ifs with him
  · rw [him, List.getElem?_set_self (by rwa [List.length_map, ← him])]
  · rw [List.getElem?_set_ne (Ne.symm him), List.getElem?_map, hx, Option.map_some]

/-- The first `i` values have been changed. -/
structure Changed (h : List ℤ) (m i : ℕ) (cur : List ℤ) : Prop where
  length : cur.length = h.length
  done : ∀ k < i, cur[k]? = (selected h m)[k]?
  rest : ∀ k, i ≤ k → cur[k]? = h[k]?

variable {cur : List ℤ}

/-- A value is changed, or left as it is. -/
theorem Changed.step (hc : Changed h m i cur) {cur' : List ℤ} (hlen : cur'.length = cur.length)
    (hi : cur'[i]? = (selected h m)[i]?) (hne : ∀ k, k ≠ i → cur'[k]? = cur[k]?) :
    Changed h m (i + 1) cur' where
  length := hlen.trans hc.length
  done := fun k hk => by
    rcases Nat.lt_succ_iff_lt_or_eq.mp hk with hlt | rfl
    · rw [hne k hlt.ne, hc.done k hlt]
    · exact hi
  rest := fun k hk => by rw [hne k (by omega), hc.rest k (by omega)]

theorem Changed.set (hc : Changed h m i cur) (hx : h[i]? = some x) :
    Changed h m (i + 1) (cur.set i (if i = m then -2 else lowered x)) := by
  have hi := (List.getElem?_eq_some_iff.mp hx).1
  refine hc.step List.length_set ?_ fun k hk => List.getElem?_set_ne hk.symm
  rw [List.getElem?_set_self (by rwa [hc.length]), getElem?_selected h hx]

/-- **The other values** are lowered. -/
theorem lowerLoop_eq (hi : i ≤ h.length) (hc : Changed h m i cur) :
    lowerLoop m i cur = pure (selected h m) := by
  obtain ⟨d, hd⟩ := Nat.exists_eq_add_of_le hi
  have hlen := hc.length
  induction d generalizing i cur with
  | zero =>
    obtain rfl : h.length = i := hd
    rw [lowerLoop, if_neg (by omega)]
    refine congrArg pure (List.ext_getElem? fun k => ?_)
    rcases Nat.lt_or_ge k h.length with hk | hk
    · exact hc.done k hk
    · rw [List.getElem?_eq_none (hlen.trans_le hk), List.getElem?_eq_none]
      rwa [selected, List.length_set, List.length_map]
  | succ d ih =>
    obtain ⟨x, hx⟩ : ∃ x, h[i]? = some x := ⟨_, List.getElem?_eq_getElem (by omega)⟩
    have hget : cur[i]? = some x := (hc.rest i le_rfl).trans hx
    have hset := hc.set hx
    rw [lowerLoop, if_pos (by omega), ← Nat.cast_succ]
    split_ifs with him
    · rw [if_pos (by omega)] at hset
      rw [setNth_eq (by omega), pure_bind]
      exact ih (by omega) hset (by omega) hset.length
    · rw [if_neg (by omega), lowered] at hset
      rw [nth_eq hget, pure_bind]
      split_ifs with hpos
      · rw [if_pos hpos] at hset
        rw [setNth_eq (by omega), pure_bind]
        exact ih (by omega) hset (by omega) hset.length
      · refine ih (by omega) (hc.step rfl ?_ fun _ _ => rfl) (by omega) hlen
        rw [hget, getElem?_selected h hx, if_neg (by omega), lowered, if_neg hpos]

/-! ### The turns -/

/-- The values that have not been selected. -/
def unselected (h : List ℤ) : List ℤ := h.filter (0 ≤ ·)

theorem mem_unselected : x ∈ unselected h ↔ x ∈ h ∧ 0 ≤ x := by
  rw [unselected, List.mem_filter, decide_eq_true_iff]

theorem unselected_append (h l : List ℤ) : unselected (h ++ l) = unselected h ++ unselected l :=
  List.filter_append _ _

theorem unselected_cons (hx : 0 ≤ x) (h : List ℤ) : unselected (x :: h) = x :: unselected h :=
  List.filter_cons_of_pos (decide_eq_true hx)

theorem unselected_cons_of_neg (hx : x < 0) (h : List ℤ) : unselected (x :: h) = unselected h :=
  List.filter_cons_of_neg (by simpa using hx)

theorem unselected_map (h : List ℤ) : unselected (h.map lowered) = (unselected h).map lowered := by
  rw [unselected, unselected, List.filter_map]
  refine congrArg _ (List.filter_congr fun x _ => ?_)
  rw [Function.comp_apply, decide_eq_decide, lowered]
  split_ifs <;> omega

/-- **One value less** is left after a turn, and the others are lowered. -/
theorem unselected_selected (hm : h[m]? = some v) (hv : 0 ≤ v) :
    ∃ rest, (unselected h).Perm (v :: rest) ∧ unselected (selected h m) = rest.map lowered := by
  obtain ⟨hlt, hget⟩ := List.getElem?_eq_some_iff.mp hm
  refine ⟨unselected (h.take m ++ h.drop (m + 1)), ?_, ?_⟩
  · rw [unselected_append]
    nth_rewrite 1 [← List.take_append_drop m h]
    rw [unselected_append, List.drop_eq_getElem_cons hlt, hget, unselected_cons hv]
    exact List.perm_middle
  · rw [selected, List.set_eq_take_append_cons_drop, if_pos (by rwa [List.length_map]),
      unselected_append, unselected_cons_of_neg (by decide), ← List.map_take, ← List.map_drop,
      unselected_map, unselected_map, ← List.map_append, unselected_append]

/-- **What is found** is what the greatest of the values is worth. -/
theorem maxLoop_worth (hfirst : ∀ c ∈ l, c ≤ b)
    (hperm : (unselected h).Perm ((b :: l).map (worth t))) :
    ∃ m : ℕ, maxLoop h 0 (-1) (-1) = pure (worth t b, (m : ℤ)) ∧ h[m]? = some (worth t b) := by
  obtain ⟨v, w, hrun, hf⟩ := maxLoop_eq (h := h) (i := 0) (v := -1) (w := -1) (Nat.zero_le _)
    ⟨fun k hk => absurd hk (Nat.not_lt_zero k), .inl rfl⟩
  have hb := mem_unselected.mp (hperm.symm.mem_iff.mp List.mem_cons_self)
  obtain ⟨p, hp⟩ := List.mem_iff_getElem?.mp hb.1
  have hbv := hf.le p (List.getElem?_eq_some_iff.mp hp).1 _ hp
  have hnonneg := hb.2
  obtain ⟨m, rfl, hm⟩ := hf.eq.resolve_left (by omega)
  have hvb : v ≤ worth t b := by
    have hmem := hperm.mem_iff.mp (mem_unselected.mpr ⟨List.mem_of_getElem? hm, by omega⟩)
    obtain ⟨c, hc, rfl⟩ := List.mem_map.mp hmem
    rcases List.mem_cons.mp hc with rfl | hc
    · exact le_rfl
    · exact worth_mono t (hfirst c hc)
  obtain rfl : v = worth t b := le_antisymm hvb hbv
  exact ⟨m, hrun, hm⟩

/-- **The other values** are left, and worth less. -/
theorem unselected_next (hperm : (unselected h).Perm ((b :: l).map (worth t)))
    (hm : h[m]? = some (worth t b)) :
    (unselected (selected h m)).Perm (l.map (worth (t + 1))) := by
  have hb := mem_unselected.mp (hperm.symm.mem_iff.mp List.mem_cons_self)
  obtain ⟨rest, hsel, hrest⟩ := unselected_selected hm hb.2
  rw [hrest, ← List.map_congr_left fun x _ => lowered_worth t x, ← Function.comp_def,
    ← List.map_map]
  exact ((hsel.symm.trans hperm).cons_inv).map lowered

/-- **The turns** select the greatest values in their order. -/
theorem roundLoop_eq (hl : l.Pairwise (· ≥ ·)) (hperm : (unselected h).Perm (l.map (worth t)))
    (hk : k ≤ l.length) (ans : ℤ) : ∃ h', roundLoop h k ans = pure (ans + gain t k l, h') := by
  induction k generalizing h l t ans with
  | zero =>
    refine ⟨h, ?_⟩
    rw [roundLoop, if_neg (not_not.mpr Nat.cast_zero), gain_zero, add_zero]
  | succ k ih =>
    cases l with
    | nil => exact absurd hk (Nat.not_succ_le_zero k)
    | cons b l =>
      obtain ⟨hfirst, hrest⟩ := List.pairwise_cons.mp hl
      obtain ⟨m, hrun, hm⟩ := maxLoop_worth hfirst hperm
      have hlower := lowerLoop_eq (Nat.zero_le _)
        (⟨rfl, fun k hk => absurd hk (Nat.not_lt_zero k), fun _ _ => rfl⟩ : Changed h m 0 h)
      rw [Nat.cast_zero] at hlower
      obtain ⟨h', hnext⟩ := ih hrest (unselected_next hperm hm) (Nat.le_of_succ_le_succ hk)
        (ans + worth t b)
      refine ⟨h', ?_⟩
      rw [roundLoop, if_pos (by omega), hrun, pure_bind]
      dsimp only
      rw [hlower, pure_bind, show ((k + 1 : ℕ) : ℤ) - 1 = k by omega, hnext, gain_cons, add_assoc]

/-- **The sum** of the sorted values. -/
theorem sumLoop_eq (hl : l.Pairwise (· ≥ ·)) (hi : i ≤ k) (hk : k ≤ l.length) (ans : ℤ) :
    sumLoop l k i ans = pure (ans + gain i (k - i) (l.drop i)) := by
  obtain ⟨d, rfl⟩ := Nat.exists_eq_add_of_le hi
  induction d generalizing i ans with
  | zero => rw [sumLoop, if_neg (by omega), Nat.add_zero, Nat.sub_self, gain_zero, add_zero]
  | succ d ih =>
    have hlt : i < l.length := by omega
    have hdrop := List.drop_eq_getElem_cons hlt
    rw [sumLoop, if_pos (by omega), nth_eq (List.getElem?_eq_getElem hlt), pure_bind]
    split_ifs with hgt
    · have hrec := ih (i := i + 1) (ans + (l[i] - (i : ℤ))) (by omega) (by omega)
      rw [show i + 1 + d = i + (d + 1) by omega, show i + (d + 1) - (i + 1) = d by omega] at hrec
      rw [hdrop, show i + (d + 1) - i = d + 1 by omega, gain_cons, worth_of_lt hgt,
        ← Nat.cast_succ, hrec, Nat.cast_succ, add_assoc]
    · have hle : ∀ x ∈ l.drop i, x ≤ i := by
        have hsorted := hl.sublist (List.drop_sublist i l)
        rw [hdrop] at hsorted ⊢
        intro x hx
        rcases List.mem_cons.mp hx with rfl | hx
        · exact not_lt.mp hgt
        · exact ((List.pairwise_cons.mp hsorted).1 x hx).trans (not_lt.mp hgt)
      rw [gain_eq_zero hle, add_zero]

end MaximumHappinessSum

end Candcpp
