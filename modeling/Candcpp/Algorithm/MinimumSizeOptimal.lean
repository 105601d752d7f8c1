import Candcpp.Algorithm.MinimumSize
import Candcpp.Order.Bisect
import Candcpp.Order.Steps

/-!
# The least size of the largest bag

What `Solution::minimumSize` of `1760.cpp` computes when its integers have no bounds. An operation
puts the balls of one bag into two bags, none of them empty (`Candcpp.MinimumSize.Splits`); the
problem asks how small the largest bag can become.

The comment before the class takes the number of operations that are needed for bags of at most `y`
balls to be the sum of all `(num - 1) / y`. Each operation takes at most one off this sum
(`Candcpp.MinimumSize.neededFor_le_steps`), and splitting `y` balls off a bag that is too large
takes off exactly one (`Candcpp.MinimumSize.exists_splits`). The search finds the least `y` for
which the sum is small enough (`Candcpp.MinimumSize.search_isLeast`), and so
**it returns the least size that the largest bag can have**
(`Candcpp.MinimumSize.minimumSize_isLeast`).
-/

namespace Candcpp

open Cpp

namespace MinimumSize

/-! ### Operations on bags -/

/-- One operation: the balls of a bag are put into two. -/
def Splits (bags bags' : Multiset ℤ) : Prop :=
  ∃ a b rest, 1 ≤ a ∧ 1 ≤ b ∧ bags = (a + b) ::ₘ rest ∧ bags' = a ::ₘ b ::ₘ rest

/-- The largest bag can have `y` balls after at most `maxOperations` operations. -/
def LargestAfter (nums : List ℤ) (maxOperations y : ℤ) : Prop :=
  ∃ k : ℕ, ∃ bags, k ≤ maxOperations ∧ Steps Splits k nums bags ∧ IsGreatest {x | x ∈ bags} y

/-- The sum of the comment, of any bags. -/
def neededFor (bags : Multiset ℤ) (y : ℤ) : ℤ := (bags.map fun num => (num - 1) / y).sum

variable {bags bags' : Multiset ℤ} {nums : List ℤ} {maxOperations y a b : ℤ} {k : ℕ}

theorem neededFor_coe (nums : List ℤ) (y : ℤ) : neededFor nums y = needed nums y := by
  rw [neededFor, Multiset.map_coe, Multiset.sum_coe, needed]

@[simp] theorem neededFor_cons (num : ℤ) (bags : Multiset ℤ) (y : ℤ) :
    neededFor (num ::ₘ bags) y = (num - 1) / y + neededFor bags y := by
  rw [neededFor, Multiset.map_cons, Multiset.sum_cons, neededFor]

theorem neededFor_nonneg (h : ∀ x ∈ bags, 1 ≤ x) (hy : 1 ≤ y) : 0 ≤ neededFor bags y := by
  induction bags using Quotient.inductionOn with
  | _ nums => exact (needed_nonneg h hy).trans_eq (neededFor_coe nums y).symm

/-- Nothing is needed where no bag is too large. -/
theorem neededFor_eq_zero (h : ∀ x ∈ bags, 1 ≤ x) (hle : ∀ x ∈ bags, x ≤ y) :
    neededFor bags y = 0 := by
  induction bags using Quotient.inductionOn with
  | _ nums => exact (neededFor_coe nums y).trans (needed_eq_zero h hle)

/-! ### A bound for every sequence of operations -/

/-- A bag counts at most one operation more than its two parts. -/
theorem quotient_le (hy : 1 ≤ y) (a b : ℤ) : (a + b - 1) / y ≤ (a - 1) / y + (b - 1) / y + 1 := by
  have ha := Int.mul_ediv_add_emod (a - 1) y
  have hb := Int.mul_ediv_add_emod (b - 1) y
  have hamod := Int.emod_lt_of_pos (a - 1) (show 0 < y by omega)
  have hbmod := Int.emod_lt_of_pos (b - 1) (show 0 < y by omega)
  have hexpand : ((a - 1) / y + (b - 1) / y + 2) * y =
      y * ((a - 1) / y) + y * ((b - 1) / y) + 2 * y := by ring
  have hlt : (a + b - 1) / y < (a - 1) / y + (b - 1) / y + 2 :=
    Int.ediv_lt_of_lt_mul (by omega) (by omega)
  omega

theorem Splits.one_le (h : Splits bags bags') (hpos : ∀ x ∈ bags, 1 ≤ x) :
    ∀ x ∈ bags', 1 ≤ x := by
  obtain ⟨a, b, rest, ha, hb, rfl, rfl⟩ := h
  intro x hx
  rcases Multiset.mem_cons.mp hx with rfl | hx
  · exact ha
  · rcases Multiset.mem_cons.mp hx with rfl | hx
    · exact hb
    · exact hpos x (Multiset.mem_cons_of_mem hx)

theorem Splits.needed_le (h : Splits bags bags') (hy : 1 ≤ y) :
    neededFor bags y ≤ neededFor bags' y + 1 := by
  obtain ⟨a, b, rest, -, -, rfl, rfl⟩ := h
  have hle := quotient_le hy a b
  simp only [neededFor_cons]
  omega

/-- **Each operation takes at most one off the sum.** -/
theorem neededFor_le_steps (h : Steps Splits k bags bags') (hy : 1 ≤ y) :
    neededFor bags y ≤ neededFor bags' y + k :=
  h.le_add (f := (neededFor · y)) fun _ _ hsplit => hsplit.needed_le hy

/-! ### The operations that suffice -/

/-- `y` balls are split off a bag that is too large. -/
theorem splits_off (hy : 1 ≤ y) (hlt : y < a) (rest : Multiset ℤ) :
    Splits (a ::ₘ rest) (y ::ₘ (a - y) ::ₘ rest) ∧
      neededFor (a ::ₘ rest) y = neededFor (y ::ₘ (a - y) ::ₘ rest) y + 1 := by
  have hquot : (a - 1) / y = (a - y - 1) / y + 1 := by
    rw [show a - 1 = a - y - 1 + 1 * y by ring, Int.add_mul_ediv_right _ _ (by omega)]
  have hzero : (y - 1) / y = 0 := Int.ediv_eq_zero_of_lt (by omega) (by omega)
  refine ⟨⟨y, a - y, rest, hy, by omega, by rw [add_sub_cancel], rfl⟩, ?_⟩
  simp only [neededFor_cons, hquot, hzero]
  ring

/-- **As many operations as the sum says** leave no bag too large. -/
theorem exists_splits (hy : 1 ≤ y) (hpos : ∀ x ∈ bags, 1 ≤ x) :
    ∃ k : ℕ, ∃ bags', k = neededFor bags y ∧ Steps Splits k bags bags' ∧ ∀ x ∈ bags', x ≤ y := by
  obtain ⟨n, hn⟩ := Int.eq_ofNat_of_zero_le (neededFor_nonneg hpos hy)
  induction n generalizing bags with
  | zero =>
    refine ⟨0, bags, hn.symm, .done, fun a ha => ?_⟩
    by_contra hlt
    -- a bag that is too large counts for an operation
    obtain ⟨rest, rfl⟩ := Multiset.exists_cons_of_mem ha
    obtain ⟨hsplit, hone⟩ := splits_off hy (not_le.mp hlt) rest
    have hnonneg := neededFor_nonneg (hsplit.one_le hpos) hy
    omega
  | succ n ih =>
    by_cases hall : ∀ x ∈ bags, x ≤ y
    · have hzero := neededFor_eq_zero hpos hall
      omega
    · push Not at hall
      obtain ⟨a, ha, hlt⟩ := hall
      obtain ⟨rest, rfl⟩ := Multiset.exists_cons_of_mem ha
      obtain ⟨hsplit, hone⟩ := splits_off hy hlt rest
      obtain ⟨k, bags', hk, hrest, hle⟩ := ih (hsplit.one_le hpos) (by push_cast at hn; omega)
      refine ⟨k + 1, bags', ?_, .next hsplit hrest, hle⟩
      push_cast
      omega

/-- There is a largest bag. -/
theorem exists_isGreatest (h : bags ≠ 0) : ∃ y, IsGreatest {x | x ∈ bags} y := by
  obtain ⟨y, hy, hmax⟩ := Finset.exists_max_image bags.toFinset id
    (Multiset.toFinset_nonempty.mpr h)
  exact ⟨y, Multiset.mem_toFinset.mp hy, fun x hx => hmax x (Multiset.mem_toFinset.mpr hx)⟩

theorem Splits.ne_zero (h : Splits bags bags') : bags' ≠ 0 := by
  obtain ⟨a, b, rest, -, -, -, rfl⟩ := h
  exact Multiset.cons_ne_zero

/-- **The least size by the sum** is the least size of the largest bag. -/
theorem isLeast_largestAfter (hne : nums ≠ []) (hpos : ∀ num ∈ nums, 1 ≤ num)
    (h : IsLeast {y | 1 ≤ y ∧ needed nums y ≤ maxOperations} y) :
    IsLeast {y | LargestAfter nums maxOperations y} y := by
  obtain ⟨⟨hy, hneeded⟩, hmin⟩ := h
  -- no sequence of operations does better: its number is at least the sum for its largest bag
  have hlower : ∀ z, LargestAfter nums maxOperations z → y ≤ z := by
    rintro z ⟨k, bags, hk, hsplits, hz, hgreatest⟩
    have hone := hsplits.preserves (P := fun bags => ∀ x ∈ bags, 1 ≤ x)
      (fun _ _ hsplit => hsplit.one_le) hpos
    have hle := neededFor_le_steps hsplits (hone z hz)
    rw [neededFor_eq_zero hone fun x hx => hgreatest hx, neededFor_coe] at hle
    exact hmin ⟨hone z hz, by omega⟩
  have hbags : ∀ x ∈ (nums : Multiset ℤ), 1 ≤ x := hpos
  obtain ⟨k, bags, hk, hsplits, hall⟩ := exists_splits hy hbags
  have hne' : bags ≠ 0 := hsplits.preserves (P := (· ≠ 0)) (fun _ _ hsplit _ => hsplit.ne_zero)
    (by simpa using hne)
  obtain ⟨z, hz⟩ := exists_isGreatest hne'
  have hz' : LargestAfter nums maxOperations z :=
    ⟨k, bags, by rw [hk, neededFor_coe]; exact hneeded, hsplits, hz⟩
  rw [le_antisymm (hall z hz.1) (hlower z hz')] at hz'
  exact ⟨hz', hlower⟩

/-! ### The search -/

/-- The sum is added up. -/
theorem operations_pure (hpos : ∀ num ∈ nums, 1 ≤ num) (y p : ℤ) :
    operations pure y nums p = pure (p + needed nums y) := by
  induction nums generalizing p with
  | nil => simp [operations, needed]
  | cons num nums ih =>
    rw [List.forall_mem_cons] at hpos
    rw [operations, pure_bind, pure_bind, Int.tdiv_eq_ediv_of_nonneg (by omega), ih hpos.2,
      needed_cons, add_assoc]

variable {m lower_bound up_bound : ℤ} {ans : Option ℤ}

/-- A turn of the search. -/
theorem search_pure_turn (hpos : ∀ num ∈ nums, 1 ≤ num) (hlow : 0 ≤ lower_bound)
    (hle : lower_bound ≤ up_bound) (hy : y = (lower_bound + up_bound) / 2) :
    search pure nums maxOperations lower_bound up_bound ans =
      if needed nums y ≤ maxOperations then
        search pure nums maxOperations lower_bound (y - 1) (some y)
      else search pure nums maxOperations (y + 1) up_bound ans := by
  rw [search, if_pos hle, pure_bind, Int.tdiv_eq_ediv_of_nonneg (by omega), ← hy]
  dsimp only
  rw [operations_pure hpos, pure_bind, zero_add]
  rfl

/-- **The search returns** when nothing is left between its bounds. -/
theorem search_bracket (hpos : ∀ num ∈ nums, 1 ≤ num)
    (h : Bracket (fun y => needed nums y ≤ maxOperations) 1 m lower_bound up_bound ans) :
    ∃ lo hi ans', search pure nums maxOperations lower_bound up_bound ans =
        (pure ans' : Exec (Option ℤ)) ∧ hi < lo ∧
      Bracket (fun y => needed nums y ≤ maxOperations) 1 m lo hi ans' := by
  induction hn : (up_bound + 1 - lower_bound).toNat using Nat.strong_induction_on
    generalizing lower_bound up_bound ans with
  | _ n ih =>
    have hone := h.bot_le
    by_cases hle : lower_bound ≤ up_bound
    · obtain ⟨y, hy⟩ : ∃ y, y = (lower_bound + up_bound) / 2 := ⟨_, rfl⟩
      rw [search_pure_turn hpos (by omega) hle hy]
      split_ifs with hok
      · exact ih _ (by omega) (h.lower (by omega) (by omega) hok) rfl
      · refine ih _ (by omega) (h.raise (by omega) (by omega) hok fun a b ha hab hok => ?_) rfl
        exact (needed_anti hpos ha hab).trans hok
    · rw [search, if_neg hle]
      exact ⟨_, _, ans, rfl, not_le.mp hle, h⟩

/-- **What the search finds**: the least size by the sum. -/
theorem search_isLeast (hpos : ∀ num ∈ nums, 1 ≤ num) (hops : 0 ≤ maxOperations)
    (hm : nums.max? = some m) : ∃ y,
      search pure nums maxOperations 1 m none = (pure (some y) : Exec (Option ℤ)) ∧
        IsLeast {y | 1 ≤ y ∧ needed nums y ≤ maxOperations} y := by
  obtain ⟨hmem, hmax⟩ := List.max?_eq_some_iff.mp hm
  have hone := hpos m hmem
  obtain ⟨lo, hi, ans, hrun, hdone, hb⟩ := search_bracket hpos
    (Bracket.init (fun y => needed nums y ≤ maxOperations) (show (1 : ℤ) ≤ m + 1 by omega))
  cases ans with
  | none =>
    -- the largest bag itself is a size for which nothing is needed
    refine absurd ?_ (hb.not_ok hdone hone le_rfl)
    exact (needed_eq_zero hpos hmax).trans_le hops
  | some y => exact ⟨y, hrun, hb.isLeast hdone⟩

/-- **`minimumSize` returns the least size that the largest bag can have**: for all bags that are
not empty and every number of operations it assigns `ans`, and this is the least size of the largest
bag after at most that many operations, and the least size for which the sum is not greater. -/
theorem minimumSize_isLeast (hne : nums ≠ []) (hpos : ∀ num ∈ nums, 1 ≤ num)
    (hops : 0 ≤ maxOperations) : ∃ y,
      minimumSize pure nums maxOperations = (pure (some y) : Exec (Option ℤ)) ∧
        IsLeast {y | LargestAfter nums maxOperations y} y ∧
        IsLeast {y | 1 ≤ y ∧ needed nums y ≤ maxOperations} y := by
  obtain ⟨m, hm⟩ := Option.isSome_iff_exists.mp (List.isSome_max?_of_ne_nil hne)
  obtain ⟨y, hrun, hleast⟩ := search_isLeast hpos hops hm
  refine ⟨y, ?_, isLeast_largestAfter hne hpos hleast, hleast⟩
  rw [minimumSize, hm]
  exact hrun

/-- Nine balls in one bag, and two operations. -/
theorem minimumSize_isLeast_nine : ∃ y, minimumSize pure [9] 2 = (pure (some y) : Exec (Option ℤ)) ∧
    IsLeast {y | LargestAfter [9] 2 y} y ∧ IsLeast {y | 1 ≤ y ∧ needed [9] y ≤ 2} y :=
  minimumSize_isLeast (by decide) (by decide) (by decide)

end MinimumSize

end Candcpp
