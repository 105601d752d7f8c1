import Candcpp.Cpp.Loop
import Candcpp.Order.SignFlips

/-!
# The greatest sum of a matrix whose signs are changed in pairs

The program of `1975.cpp`. In a matrix of `n` rows and columns two entries that have an edge in
common may be multiplied by -1, as often as one likes. The program adds up the absolute values,
looks for the least of them, and counts the negative entries. If there is an odd number of these it
takes the least absolute value off twice.

This is the greatest sum, since the cells of a square are connected
(`Candcpp.isGreatest_sums_even`, `Candcpp.isGreatest_sums_odd`). But the negative entries are
counted in an `int`, so that **the program is right exactly if their number is one, and the sum of
the absolute values is a `long long`** (`Candcpp.MaxMatrixSum.maxMatrixSum_iff`).
-/

namespace Candcpp

open Cpp

namespace MaxMatrixSum

/-! ### The code -/

/-- The greatest value of a `long long`. -/
def longMax : ℤ := 9223372036854775807

/-- The least value of a `long long`. -/
def longMin : ℤ := -9223372036854775808

/-- The value of an expression of type `long long`, of which `x` is the mathematical value. -/
def long (x : ℤ) : Exec ℤ := if longMin ≤ x ∧ x ≤ longMax then pure x else throw .overflow

/-- `abs_sum`, `abs_min` and `negative_num_cnt`. -/
structure Totals where
  absSum : ℤ
  absMin : ℤ
  negativeNumCnt : ℤ
  deriving DecidableEq, Repr

/-- `matrix[i][j]`. -/
def entry (matrix : List (List ℤ)) (i j : ℤ) : Exec ℤ := do
  let row ← nth matrix i
  nth row j

/-- `if (x < 0) negative_num_cnt++;`. -/
def countNegative (x cnt : ℤ) : Exec ℤ := if x < 0 then int (cnt + 1) else pure cnt

/-- The body of the loops, for the entry `x`. -/
def visit (s : Totals) (x : ℤ) : Exec Totals := do
  let cnt ← countNegative x s.negativeNumCnt
  let absNum ← int |x|
  let absMin := if absNum < s.absMin then absNum else s.absMin
  let absSum ← long (s.absSum + absNum)
  pure ⟨absSum, absMin, cnt⟩

/-- `for (int j = 0; j < n; ++j)`. -/
def jLoop (matrix : List (List ℤ)) (n i : ℕ) (s : Totals) : Exec Totals :=
  (List.range n).foldlM (fun s (j : ℕ) => do
    let x ← entry matrix i j
    visit s x) s

/-- `for (int i = 0; i < n; ++i)`. -/
def iLoop (matrix : List (List ℤ)) (n : ℕ) (s : Totals) : Exec Totals :=
  (List.range n).foldlM (fun s i => jLoop matrix n i s) s

/-- `maxMatrixSum`. -/
def maxMatrixSum (matrix : List (List ℤ)) : Exec ℤ := do
  let s ← iLoop matrix matrix.length ⟨0, 100010, 0⟩
  if s.negativeNumCnt % 2 = 1 then
    let x ← int (s.absMin * 2)
    long (s.absSum - x)
  else
    pure s.absSum

/-! ### The cells -/

/-- A cell of a matrix of `n` rows and columns. -/
abbrev Cell (n : ℕ) := Fin n × Fin n

/-- The rows of a matrix. -/
def rows {n : ℕ} (a : Cell n → ℤ) : List (List ℤ) :=
  List.ofFn fun i => List.ofFn fun j => a (i, j)

/-- **The cells**, of which those are adjacent that have an edge in common. -/
def grid (n : ℕ) : SimpleGraph (Cell n) := SimpleGraph.pathGraph n □ SimpleGraph.pathGraph n

variable {n : ℕ} {a : Cell n → ℤ} {p q : Cell n} {l : List ℤ} {s t : Totals}

/-- Two cells are adjacent when they share a border. -/
theorem grid_adj : (grid n).Adj p q ↔
    ((p.1 : ℕ) + 1 = q.1 ∨ (q.1 : ℕ) + 1 = p.1) ∧ p.2 = q.2 ∨
      ((p.2 : ℕ) + 1 = q.2 ∨ (q.2 : ℕ) + 1 = p.2) ∧ p.1 = q.1 := by
  rw [grid, SimpleGraph.boxProd_adj, SimpleGraph.pathGraph_adj, SimpleGraph.pathGraph_adj]

theorem grid_preconnected (n : ℕ) : (grid n).Preconnected :=
  (SimpleGraph.pathGraph_preconnected n).boxProd (SimpleGraph.pathGraph_preconnected n)

/-- **Sums over the cells** are sums over the rows. -/
theorem sum_rows (a : Cell n → ℤ) (g : ℤ → ℤ) : ((rows a).flatten.map g).sum = ∑ p, g (a p) := by
  rw [Fintype.sum_prod_type, List.map_flatten, List.sum_flatten, rows, List.map_ofFn, List.map_ofFn,
    List.sum_ofFn]
  refine Finset.sum_congr rfl fun i _ => ?_
  rw [Function.comp_apply, Function.comp_apply, List.map_ofFn, List.sum_ofFn]
  rfl

theorem mem_rows {x : ℤ} : x ∈ (rows a).flatten ↔ ∃ p, a p = x := by
  rw [rows, List.mem_flatten]
  simp only [List.mem_ofFn, Prod.exists]
  constructor
  · rintro ⟨_, ⟨i, rfl⟩, hx⟩
    obtain ⟨j, rfl⟩ := List.mem_ofFn.mp hx
    exact ⟨i, j, rfl⟩
  · rintro ⟨i, j, rfl⟩
    exact ⟨_, ⟨i, rfl⟩, List.mem_ofFn.mpr ⟨j, rfl⟩⟩

/-! ### The loops -/

/-- `1` for a negative entry. -/
def negative (x : ℤ) : ℤ := if x < 0 then 1 else 0

/-- What the body leaves behind for the entry `x`. -/
def next (s : Totals) (x : ℤ) : Totals where
  absSum := s.absSum + |x|
  absMin := min s.absMin |x|
  negativeNumCnt := s.negativeNumCnt + negative x

theorem negative_nonneg (x : ℤ) : 0 ≤ negative x := by
  rw [negative]
  split_ifs <;> decide

/-- **The loops visit the entries**, row after row. -/
theorem iLoop_rows (a : Cell n → ℤ) (s : Totals) :
    iLoop (rows a) (rows a).length s = (rows a).flatten.foldlM visit s := by
  rw [← foldlM_flatten]
  refine foldlM_range_length (fun i row hrow t => ?_) s
  have hlen : (rows a).length = row.length := by
    obtain ⟨i, rfl⟩ := List.mem_ofFn.mp (List.mem_of_getElem? hrow)
    rw [rows, List.length_ofFn, List.length_ofFn]
  rw [jLoop, hlen]
  refine foldlM_range_length (fun j x hx t => ?_) t
  rw [entry, nth_eq hrow, pure_bind, nth_eq hx, pure_bind]

/-- The totals are not negative, and in range. -/
structure InRange (s : Totals) : Prop where
  absSum : 0 ≤ s.absSum ∧ s.absSum ≤ longMax
  negativeNumCnt : 0 ≤ s.negativeNumCnt ∧ s.negativeNumCnt ≤ intMax

theorem countNegative_eq_pure (hs : InRange s) {x c : ℤ} :
    countNegative x s.negativeNumCnt = pure c ↔
      s.negativeNumCnt + negative x ≤ intMax ∧ c = s.negativeNumCnt + negative x := by
  obtain ⟨h0, hmax⟩ := hs.negativeNumCnt
  have hmin : intMin ≤ 0 := by decide
  rw [countNegative, negative]
  split_ifs with hneg
  · rw [int_eq_pure]
    exact ⟨fun h => ⟨h.1.2, h.2.symm⟩, fun h => ⟨⟨by omega, h.1⟩, h.2.symm⟩⟩
  · rw [Exec.pure_inj, add_zero]
    exact ⟨fun h => ⟨hmax, h.symm⟩, fun h => h.2.symm⟩

theorem long_eq_pure {x y : ℤ} : long x = pure y ↔ (longMin ≤ x ∧ x ≤ longMax) ∧ x = y := by
  rw [long]
  split_ifs with h
  · rw [Exec.pure_inj]
    exact (and_iff_right h).symm
  · exact iff_of_false (fun hp => Exec.pure_ne_throw _ _ hp.symm) fun hp => h hp.1

/-- **The body of the loops** returns if nothing overflows. -/
theorem visit_eq_pure (hs : InRange s) {x : ℤ} (hx : |x| ≤ intMax) : visit s x = pure t ↔
    (s.negativeNumCnt + negative x ≤ intMax ∧ s.absSum + |x| ≤ longMax) ∧ t = next s x := by
  have habs : 0 ≤ |x| := abs_nonneg x
  have hmin : intMin ≤ 0 := by decide
  have hlmin : longMin ≤ 0 := by decide
  have hleast : (if |x| < s.absMin then |x| else s.absMin) = min s.absMin |x| := by
    split_ifs <;> omega
  rw [visit, int_eq (hmin.trans habs) hx, Exec.bind_eq_pure]
  simp only [pure_bind, hleast, countNegative_eq_pure hs]
  constructor
  · rintro ⟨c, ⟨hc, rfl⟩, h⟩
    obtain ⟨y, hy, h⟩ := Exec.bind_eq_pure.mp h
    obtain ⟨⟨-, hle⟩, rfl⟩ := long_eq_pure.mp hy
    exact ⟨⟨hc, hle⟩, (Exec.pure_inj.mp h).symm⟩
  · rintro ⟨⟨hc, hle⟩, rfl⟩
    refine ⟨_, ⟨hc, rfl⟩, Exec.bind_eq_pure.mpr ⟨_, long_eq_pure.mpr ⟨⟨?_, hle⟩, rfl⟩, rfl⟩⟩
    have hsum := hs.absSum.1
    omega

/-- **All entries**: the loop returns if the last totals are in range. -/
theorem foldlM_visit_eq_pure (hs : InRange s) (hl : ∀ x ∈ l, |x| ≤ intMax) :
    l.foldlM visit s = pure t ↔ (s.negativeNumCnt + (l.map negative).sum ≤ intMax ∧
      s.absSum + (l.map fun x => |x|).sum ≤ longMax) ∧ t = l.foldl next s := by
  induction l generalizing s with
  | nil =>
    simp only [List.foldlM_nil, List.map_nil, List.sum_nil, add_zero, List.foldl_nil, Exec.pure_inj]
    exact ⟨fun h => ⟨⟨hs.negativeNumCnt.2, hs.absSum.2⟩, h.symm⟩, fun h => h.2.symm⟩
  | cons x l ih =>
    have hx := hl x List.mem_cons_self
    have hrest := fun y hy => hl y (List.mem_cons_of_mem x hy)
    have hcnt : 0 ≤ (l.map negative).sum := List.sum_nonneg fun y hy => by
      obtain ⟨z, -, rfl⟩ := List.mem_map.mp hy
      exact negative_nonneg z
    have hsum : 0 ≤ (l.map fun x => |x|).sum := List.sum_nonneg fun y hy => by
      obtain ⟨z, -, rfl⟩ := List.mem_map.mp hy
      exact abs_nonneg z
    have hneg := negative_nonneg x
    have habs := abs_nonneg x
    have hs0 := hs.absSum.1
    have hc0 := hs.negativeNumCnt.1
    rw [List.foldlM_cons, Exec.bind_eq_pure, List.map_cons, List.map_cons, List.sum_cons,
      List.sum_cons, List.foldl_cons, ← add_assoc, ← add_assoc]
    simp only [visit_eq_pure hs hx]
    constructor
    · rintro ⟨_, ⟨⟨hc, hle⟩, rfl⟩, h⟩
      exact (ih ⟨⟨by simp only [next]; omega, hle⟩, by simp only [next]; omega, hc⟩ hrest).mp h
    · rintro ⟨⟨hc, hle⟩, rfl⟩
      refine ⟨_, ⟨⟨by omega, by omega⟩, rfl⟩, (ih ?_ hrest).mpr ⟨⟨hc, hle⟩, rfl⟩⟩
      exact ⟨⟨by simp only [next]; omega, by simp only [next]; omega⟩,
        by simp only [next]; omega, by simp only [next]; omega⟩

/-! ### The totals -/

theorem absSum_foldl (l : List ℤ) (s : Totals) :
    (l.foldl next s).absSum = s.absSum + (l.map fun x => |x|).sum := by
  induction l generalizing s with
  | nil => rw [List.foldl_nil, List.map_nil, List.sum_nil, add_zero]
  | cons x l ih => rw [List.foldl_cons, ih, List.map_cons, List.sum_cons, next, add_assoc]

theorem negativeNumCnt_foldl (l : List ℤ) (s : Totals) :
    (l.foldl next s).negativeNumCnt = s.negativeNumCnt + (l.map negative).sum := by
  induction l generalizing s with
  | nil => rw [List.foldl_nil, List.map_nil, List.sum_nil, add_zero]
  | cons x l ih => rw [List.foldl_cons, ih, List.map_cons, List.sum_cons, next, add_assoc]

theorem absMin_foldl_le (l : List ℤ) (s : Totals) : (l.foldl next s).absMin ≤ s.absMin ∧
    ∀ x ∈ l, (l.foldl next s).absMin ≤ |x| := by
  induction l generalizing s with
  | nil => exact ⟨le_rfl, fun x hx => absurd hx List.not_mem_nil⟩
  | cons x l ih =>
    obtain ⟨hle, hall⟩ := ih (next s x)
    rw [List.foldl_cons]
    exact ⟨hle.trans (min_le_left _ _),
      List.forall_mem_cons.mpr ⟨hle.trans (min_le_right _ _), hall⟩⟩

theorem absMin_foldl_mem (l : List ℤ) (s : Totals) :
    (l.foldl next s).absMin = s.absMin ∨ ∃ x ∈ l, (l.foldl next s).absMin = |x| := by
  induction l generalizing s with
  | nil => exact .inl rfl
  | cons x l ih =>
    rw [List.foldl_cons]
    rcases ih (next s x) with h | ⟨y, hy, h⟩
    · rw [h, next]
      rcases min_choice s.absMin |x| with h | h
      · exact .inl h
      · exact .inr ⟨x, List.mem_cons_self, h⟩
    · exact .inr ⟨y, List.mem_cons_of_mem x hy, h⟩

/-- **The negative entries** are counted. -/
theorem sum_negative (a : Cell n → ℤ) :
    ((rows a).flatten.map negative).sum = (negatives a).card := by
  rw [sum_rows, negatives, Finset.card_filter]
  push_cast
  rfl

/-! ### The program -/

/-- The entries are within the bounds of the problem. -/
def Bounded (a : Cell n → ℤ) : Prop := ∀ p, -100000 ≤ a p ∧ a p ≤ 100000

theorem Bounded.abs_entry_le (h : Bounded a) (p : Cell n) : |a p| ≤ 100000 := abs_le.mpr (h p)

/-- **The loops return** if the number of negative entries is an `int`, and the sum of the absolute
values is a `long long`. -/
theorem iLoop_eq_pure (h : Bounded a) :
    iLoop (rows a) (rows a).length ⟨0, 100010, 0⟩ = pure t ↔
      (((negatives a).card : ℤ) ≤ intMax ∧ ∑ p, |a p| ≤ longMax) ∧
        t = (rows a).flatten.foldl next ⟨0, 100010, 0⟩ := by
  have hrange : InRange ⟨0, 100010, 0⟩ := ⟨by decide, by decide⟩
  have hint : ∀ x ∈ (rows a).flatten, |x| ≤ intMax := by
    intro x hx
    obtain ⟨p, rfl⟩ := mem_rows.mp hx
    exact (h.abs_entry_le p).trans (by decide)
  rw [iLoop_rows, foldlM_visit_eq_pure hrange hint, zero_add, zero_add, sum_negative,
    sum_rows a fun x => |x|]

/-- **The last totals**: the sum of the absolute values, the least of them, and the number of the
negative entries. -/
theorem exists_least (hn : 1 ≤ n) (h : Bounded a)
    (ht : t = (rows a).flatten.foldl next ⟨0, 100010, 0⟩) : t.absSum = ∑ p, |a p| ∧
      t.negativeNumCnt = (negatives a).card ∧ ∃ p, t.absMin = |a p| ∧ ∀ q, |a p| ≤ |a q| := by
  have hle := (absMin_foldl_le (rows a).flatten ⟨0, 100010, 0⟩).2
  rw [ht, absSum_foldl, negativeNumCnt_foldl, zero_add, zero_add, sum_negative,
    sum_rows a fun x => |x|]
  refine ⟨rfl, rfl, ?_⟩
  rcases absMin_foldl_mem (rows a).flatten ⟨0, 100010, 0⟩ with hmin | ⟨x, hx, hmin⟩
  · -- the first value is greater than every entry
    have hfirst := hle (a (⟨0, hn⟩, ⟨0, hn⟩)) (mem_rows.mpr ⟨_, rfl⟩)
    rw [hmin] at hfirst
    exact absurd (hfirst.trans (h.abs_entry_le _)) (by decide)
  · obtain ⟨p, rfl⟩ := mem_rows.mp hx
    refine ⟨p, hmin, fun q => ?_⟩
    rw [← hmin]
    exact hle (a q) (mem_rows.mpr ⟨q, rfl⟩)

/-- **The greatest sum** is returned exactly if the number of negative entries is an `int`, and the
sum of the absolute values is a `long long`. -/
theorem maxMatrixSum_iff (hn : 1 ≤ n) (h : Bounded a) :
    (∃ r, maxMatrixSum (rows a) = pure r ∧ IsGreatest (sums (grid n) a) r) ↔
      ((negatives a).card : ℤ) ≤ intMax ∧ ∑ p, |a p| ≤ longMax := by
  constructor
  · rintro ⟨r, hr, -⟩
    obtain ⟨t, ht, -⟩ := Exec.bind_eq_pure.mp hr
    exact ((iLoop_eq_pure h).mp ht).1
  · intro hfits
    obtain ⟨t, ht⟩ : ∃ t, t = (rows a).flatten.foldl next ⟨0, 100010, 0⟩ := ⟨_, rfl⟩
    obtain ⟨hsum, hcnt, p, hmin, hleast⟩ := exists_least hn h ht
    have hnonneg : 0 ≤ ∑ p, |a p| := Finset.sum_nonneg fun p _ => abs_nonneg (a p)
    have hp0 := abs_nonneg (a p)
    have hp := h.abs_entry_le p
    rw [maxMatrixSum, (iLoop_eq_pure h).mpr ⟨hfits, ht⟩, pure_bind, hsum, hmin, hcnt]
    split_ifs with hodd
    · have hodd' : Odd (negatives a).card := by
        rw [Nat.odd_iff]
        omega
      rw [int_eq (by rw [intMin]; omega) (by rw [intMax]; omega), pure_bind]
      refine ⟨_, long_eq_pure.mpr ⟨⟨?_, ?_⟩, rfl⟩, ?_⟩
      · rw [longMin]
        omega
      · exact (sub_le_self _ (by omega)).trans hfits.2
      · rw [mul_comm]
        exact isGreatest_sums_odd (grid_preconnected n) hodd' hleast
    · have heven : Even (negatives a).card := by
        rw [Nat.even_iff]
        omega
      exact ⟨_, rfl, isGreatest_sums_even (grid_preconnected n) heven⟩

/-- A matrix of two rows and columns with one negative entry. -/
theorem maxMatrixSum_iff_two :
    Bounded (fun p : Cell 2 => if p = (0, 0) then -1 else 2) ∧
      ((∃ r, maxMatrixSum (rows fun p : Cell 2 => if p = (0, 0) then -1 else 2) = pure r ∧
        IsGreatest (sums (grid 2) fun p => if p = (0, 0) then -1 else 2) r) ↔
          ((negatives fun p : Cell 2 => if p = (0, 0) then -1 else 2).card : ℤ) ≤ intMax ∧
            ∑ p : Cell 2, |if p = (0, 0) then (-1 : ℤ) else 2| ≤ longMax) := by
  have h : Bounded (fun p : Cell 2 => if p = (0, 0) then -1 else 2) := by
    intro p
    dsimp only
    split_ifs <;> decide
  exact ⟨h, maxMatrixSum_iff (by decide) h⟩

/-- All entries are negative. -/
theorem card_negatives_neg_one (n : ℕ) : (negatives fun _ : Cell n => -1).card = n * n := by
  have hall : (negatives fun _ : Cell n => -1) = Finset.univ :=
    Finset.filter_true_of_mem fun _ _ => show (-1 : ℤ) < 0 by decide
  rw [hall, Finset.card_univ, Fintype.card_prod, Fintype.card_fin]

/-- **It fails** on the matrix of 46341 rows and columns with all entries -1. -/
theorem not_maxMatrixSum : ¬ ∀ (n : ℕ) (a : Cell n → ℤ), 1 ≤ n → Bounded a →
    ∃ r, maxMatrixSum (rows a) = pure r ∧ IsGreatest (sums (grid n) a) r := by
  intro hall
  have h : Bounded fun _ : Cell 46341 => -1 := fun _ => ⟨by norm_num, by norm_num⟩
  obtain ⟨r, hr, -⟩ := hall 46341 _ (by decide) h
  obtain ⟨t, ht, -⟩ := Exec.bind_eq_pure.mp hr
  have hfits := ((iLoop_eq_pure h).mp ht).1.1
  rw [card_negatives_neg_one, intMax] at hfits
  norm_num at hfits

end MaxMatrixSum

end Candcpp
