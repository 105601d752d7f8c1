import Candcpp.Cpp.Exec
import Candcpp.Order.Guillotine
import Candcpp.Order.Windows

/-!
# The cost of cutting a cake

The two versions of `3218.cpp`, in integers without bounds: `minimumCost`, which takes the lines in
the order of their costs, and `minimumCost_my`, which tries all cuts of all pieces (`dfs`). What
they are to compute is `Candcpp.Guillotine.least`: the least cost of all orders of cuts.

`minimumCost` adds up each line with a multiplier, one more than the number of the lines of the
other direction that are still to come, which are more expensive
(`Candcpp.MinimumCost.mergeLoop_eq`). **It always returns the least cost**
(`Candcpp.MinimumCost.minimumCost_isLeast`).

`dfs` starts with a result of `65535` for each piece, which is no upper bound: what it returns for a
piece is the least cost or `65535`, whichever is less (`Candcpp.MinimumCost.dfs_eq`). So **it
returns the least cost exactly if this is at most `65535`**
(`Candcpp.MinimumCost.minimumCostMy_iff`).
-/

namespace Candcpp

open Cpp Guillotine

namespace MinimumCost

/-! ### The code -/

/-- The condition in the loop of `minimumCost`:
`j == n - 1 || i < m - 1 && horizontalCut[i] < verticalCut[j]`. -/
def takesHorizontal (horizontalCut verticalCut : List ℤ) (m n i j : ℤ) : Exec Bool := do
  if j = n - 1 then
    pure true
  else if i < m - 1 then
    let x ← nth horizontalCut i
    let y ← nth verticalCut j
    pure (x < y)
  else
    pure false

/-- `while (i < m - 1 || j < n - 1)`. -/
def mergeLoop (horizontalCut verticalCut : List ℤ) (m n i j ans : ℤ) : Exec ℤ := do
  let +zeta mergeLoop : type_of% mergeLoop := by apply mergeLoop
  if i < m - 1 ∨ j < n - 1 then
    let horizontal ← takesHorizontal horizontalCut verticalCut m n i j
    if horizontal then
      let x ← nth horizontalCut i
      mergeLoop horizontalCut verticalCut m n (i + 1) j (ans + x * (n - j))
    else
      let y ← nth verticalCut j
      mergeLoop horizontalCut verticalCut m n i (j + 1) (ans + y * (m - i))
  else
    pure ans
partial_fixpoint

/-- `minimumCost`. -/
def minimumCost (m n : ℤ) (horizontalCut verticalCut : List ℤ) : Exec ℤ :=
  mergeLoop (horizontalCut.insertionSort (· ≤ ·)) (verticalCut.insertionSort (· ≤ ·)) m n 0 0 0

section Dfs

variable (h v : List ℤ)

mutual

/-- `dfs`. -/
def dfs (lu_r lu_c rd_r rd_c : ℤ) : Exec ℤ := do
  let +zeta columnLoop : type_of% columnLoop := by apply columnLoop
  let +zeta rowLoop : type_of% rowLoop := by apply rowLoop
  if lu_r = rd_r ∧ lu_c = rd_c then
    pure 0
  else
    let res ← rowLoop lu_r lu_c rd_r rd_c lu_r 65535
    columnLoop lu_r lu_c rd_r rd_c lu_c res
partial_fixpoint

/-- `for (int i = lu_r; i < rd_r; i++)`. -/
def rowLoop (lu_r lu_c rd_r rd_c i res : ℤ) : Exec ℤ := do
  let +zeta dfs : type_of% dfs := by apply dfs
  let +zeta rowLoop : type_of% rowLoop := by apply rowLoop
  if i < rd_r then
    let cost1 ← dfs lu_r lu_c i rd_c
    let cost2 ← dfs (i + 1) lu_c rd_r rd_c
    let x ← nth h i
    rowLoop lu_r lu_c rd_r rd_c (i + 1) (min res (cost1 + cost2 + x))
  else
    pure res
partial_fixpoint

/-- `for (int j = lu_c; j < rd_c; j++)`. -/
def columnLoop (lu_r lu_c rd_r rd_c j res : ℤ) : Exec ℤ := do
  let +zeta columnLoop : type_of% columnLoop := by apply columnLoop
  let +zeta dfs : type_of% dfs := by apply dfs
  if j < rd_c then
    let cost1 ← dfs lu_r lu_c rd_r j
    let cost2 ← dfs lu_r (j + 1) rd_r rd_c
    let y ← nth v j
    columnLoop lu_r lu_c rd_r rd_c (j + 1) (min res (cost1 + cost2 + y))
  else
    pure res
partial_fixpoint

end

end Dfs

/-- `minimumCost_my`. -/
def minimumCostMy (m n : ℤ) (h v : List ℤ) : Exec ℤ := dfs h v 0 0 (m - 1) (n - 1)

/-- A cake of `m` rows and `n` columns, and the costs of its lines. -/
structure Limits (m n : ℤ) (h v : List ℤ) : Prop where
  rows : m = h.length + 1
  columns : n = v.length + 1
  horizontal : ∀ x ∈ h, 0 ≤ x
  vertical : ∀ y ∈ v, 0 ≤ y

/-! ### The lines in the order of their costs -/

variable {h v : List ℤ} {m n x y ans : ℤ} {i j : ℕ}

/-- The line of the least cost is taken first. -/
theorem least_cons_of_le (hx : ∀ y ∈ v, x ≤ y) (h : List ℤ) :
    least ⟨x :: h, v⟩ = x * (v.length + 1) + least ⟨h, v⟩ := by
  rw [least_cons, pairs_eq_mul hx]
  ring

theorem least_cons_right_of_le (hy : ∀ x ∈ h, y ≤ x) (v : List ℤ) :
    least ⟨h, y :: v⟩ = y * (h.length + 1) + least ⟨h, v⟩ := by
  have hleast := least_cons_of_le hy v
  rwa [← least_transpose, ← least_transpose ⟨v, h⟩] at hleast

/-- The lines from some position on are the more expensive ones. -/
theorem le_of_mem_drop (hs : h.Pairwise (· ≤ ·)) (hi : h[i]? = some x) :
    h.drop i = x :: h.drop (i + 1) ∧ ∀ y ∈ h.drop i, x ≤ y := by
  obtain ⟨hlt, rfl⟩ := List.getElem?_eq_some_iff.mp hi
  refine ⟨List.drop_eq_getElem_cons hlt, fun y hy => ?_⟩
  have hrest := hs.sublist (List.drop_sublist i h)
  rw [List.drop_eq_getElem_cons hlt, List.pairwise_cons] at hrest
  rw [List.drop_eq_getElem_cons hlt] at hy
  rcases List.mem_cons.mp hy with rfl | hy
  · exact le_rfl
  · exact hrest.1 y hy

/-- The lines of either direction that are left, where those of the other one are used up. -/
theorem drop_eq_nil (h : List ℤ) : h.drop h.length = [] := List.drop_eq_nil_of_le le_rfl

/-- Which line the loop takes: one that costs at most as much as each of the other direction. -/
theorem takesHorizontal_eq (hh : h.Pairwise (· ≤ ·)) (hv : v.Pairwise (· ≤ ·))
    (hi : i ≤ h.length) (hj : j ≤ v.length) (hlt : i < h.length ∨ j < v.length) :
    (∃ x, h[i]? = some x ∧ (∀ y ∈ v.drop j, x ≤ y) ∧
        takesHorizontal h v (h.length + 1) (v.length + 1) i j = pure true) ∨
      ∃ y, v[j]? = some y ∧ (∀ x ∈ h.drop i, y ≤ x) ∧
        takesHorizontal h v (h.length + 1) (v.length + 1) i j = pure false := by
  have hlast : (j : ℤ) = v.length + 1 - 1 ↔ j = v.length := by omega
  have hmore : (i : ℤ) < h.length + 1 - 1 ↔ i < h.length := by omega
  simp only [takesHorizontal, hlast, hmore]
  rcases Nat.lt_or_ge j v.length with hjlt | hjge
  · have hy := List.getElem?_eq_getElem hjlt
    obtain ⟨-, hyle⟩ := le_of_mem_drop hv hy
    rw [if_neg hjlt.ne]
    rcases Nat.lt_or_ge i h.length with hilt | hige
    · have hx := List.getElem?_eq_getElem hilt
      obtain ⟨-, hxle⟩ := le_of_mem_drop hh hx
      rw [if_pos hilt, nth_eq hx, pure_bind, nth_eq hy, pure_bind]
      by_cases hless : h[i] < v[j]
      · refine .inl ⟨_, hx, fun y hmem => hless.le.trans (hyle y hmem), ?_⟩
        rw [decide_eq_true hless]
      · refine .inr ⟨_, hy, fun x hmem => (not_lt.mp hless).trans (hxle x hmem), ?_⟩
        rw [decide_eq_false hless]
    · obtain rfl : i = h.length := by omega
      rw [if_neg (lt_irrefl _)]
      refine .inr ⟨_, hy, fun x hx => ?_, rfl⟩
      rw [drop_eq_nil] at hx
      exact absurd hx List.not_mem_nil
  · obtain rfl : j = v.length := by omega
    rw [if_pos rfl]
    refine .inl ⟨_, List.getElem?_eq_getElem (by omega), fun y hy => ?_, rfl⟩
    rw [drop_eq_nil] at hy
    exact absurd hy List.not_mem_nil

/-- **What the loop adds up**: the least cost for the lines that are left. -/
theorem mergeLoop_eq (hh : h.Pairwise (· ≤ ·)) (hv : v.Pairwise (· ≤ ·)) (hi : i ≤ h.length)
    (hj : j ≤ v.length) (ans : ℤ) :
    mergeLoop h v (h.length + 1) (v.length + 1) i j ans =
      pure (ans + least ⟨h.drop i, v.drop j⟩) := by
  induction hn : (h.length - i) + (v.length - j) generalizing i j ans with
  | zero =>
    obtain ⟨rfl, rfl⟩ : i = h.length ∧ j = v.length := by omega
    rw [mergeLoop, if_neg (by omega), drop_eq_nil, drop_eq_nil]
    simp [least]
  | succ n ih =>
    rw [mergeLoop, if_pos (by omega)]
    have hcasti : (i : ℤ) + 1 = (i + 1 : ℕ) := by push_cast; rfl
    have hcastj : (j : ℤ) + 1 = (j + 1 : ℕ) := by push_cast; rfl
    rcases takesHorizontal_eq hh hv hi hj (by omega) with
      ⟨x, hx, hle, htakes⟩ | ⟨y, hy, hle, htakes⟩
    · have hlt := (List.getElem?_eq_some_iff.mp hx).1
      rw [htakes, pure_bind, if_pos rfl, nth_eq hx, pure_bind, hcasti,
        ih (by omega) hj _ (by omega), (le_of_mem_drop hh hx).1, least_cons_of_le hle,
        List.length_drop]
      refine congrArg pure ?_
      push_cast [hj]
      ring
    · have hlt := (List.getElem?_eq_some_iff.mp hy).1
      rw [htakes, pure_bind, if_neg (by decide), nth_eq hy, pure_bind, hcastj,
        ih hi (by omega) _ (by omega), (le_of_mem_drop hv hy).1, least_cons_right_of_le hle,
        List.length_drop]
      refine congrArg pure ?_
      push_cast [hi]
      ring

/-- **`minimumCost` returns the least cost** of all orders of cuts. -/
theorem minimumCost_isLeast (hlim : Limits m n h v) :
    ∃ c, minimumCost m n h v = pure c ∧ IsLeast {c | Cuts {⟨h, v⟩} c} c := by
  refine ⟨least ⟨h, v⟩, ?_, isLeast_least _⟩
  have hrows : m = (h.insertionSort (· ≤ ·)).length + 1 := by
    rw [List.length_insertionSort, hlim.rows]
  have hcolumns : n = (v.insertionSort (· ≤ ·)).length + 1 := by
    rw [List.length_insertionSort, hlim.columns]
  have hloop := mergeLoop_eq (i := 0) (j := 0) (List.pairwise_insertionSort (· ≤ ·) h)
    (List.pairwise_insertionSort (· ≤ ·) v) (Nat.zero_le _) (Nat.zero_le _) 0
  rw [List.drop_zero, List.drop_zero, zero_add,
    least_perm (List.perm_insertionSort _ h) (List.perm_insertionSort _ v)] at hloop
  rw [minimumCost, hrows, hcolumns]
  exact hloop

/-- A cake of two rows and three columns. -/
theorem minimumCost_isLeast_two : ∃ c, minimumCost 2 3 [5] [2, 7] = pure c ∧
    IsLeast {c | Cuts {⟨[5], [2, 7]⟩} c} c :=
  minimumCost_isLeast ⟨by decide, by decide, by decide, by decide⟩

/-! ### All cuts of all pieces -/

/-- What `dfs` returns for a piece of a least cost: it starts with `65535`. -/
def capped (p : Piece) : ℤ := min 65535 (least p)

variable {l : List ℤ} {a b c d k : ℕ} {res : ℤ}

theorem between_nonneg (hl : ∀ x ∈ l, 0 ≤ x) : ∀ x ∈ between l a b, 0 ≤ x := by
  intro x hx
  obtain ⟨k, -, -, hk⟩ := mem_between hx
  exact hl x (List.mem_of_getElem? hk)

/-- One more result is taken into the minimum. -/
theorem le_min_step {T : ℕ → ℤ} (hlt : k < b) (z : ℤ) :
    (z ≤ min res (T k) ∧ ∀ i, k + 1 ≤ i → i < b → z ≤ T i) ↔
      z ≤ res ∧ ∀ i, k ≤ i → i < b → z ≤ T i := by
  rw [le_min_iff]
  constructor
  · rintro ⟨⟨hres, hk⟩, hrest⟩
    refine ⟨hres, fun i hi hib => ?_⟩
    rcases Nat.eq_or_lt_of_le hi with rfl | hlt
    · exact hk
    · exact hrest i hlt hib
  · rintro ⟨hres, hall⟩
    exact ⟨⟨hres, hall k le_rfl hlt⟩, fun i hi => hall i (by omega)⟩

/-- **The first loop** takes the minimum over the horizontal cuts. -/
theorem rowLoop_eq {T : ℕ → ℤ} (hk : k ≤ b)
    (hT : ∀ i, k ≤ i → i < b → ∃ c1 c2 x, dfs h v a c i d = pure c1 ∧
      dfs h v (i + 1 : ℕ) c b d = pure c2 ∧ h[i]? = some x ∧ T i = c1 + c2 + x) (res : ℤ) :
    ∃ r, rowLoop h v a c b d k res = pure r ∧
      ∀ z, z ≤ r ↔ z ≤ res ∧ ∀ i, k ≤ i → i < b → z ≤ T i := by
  induction hn : b - k generalizing k res with
  | zero =>
    rw [rowLoop, if_neg (by omega)]
    exact ⟨res, rfl, fun z => (and_iff_left fun i hi hib => by omega).symm⟩
  | succ n ih =>
    obtain ⟨c1, c2, x, h1, h2, hx, hTk⟩ := hT k le_rfl (by omega)
    have hcast : (k : ℤ) + 1 = (k + 1 : ℕ) := by push_cast; rfl
    obtain ⟨r, hr, hle⟩ := ih (k := k + 1) (by omega) (fun i hi => hT i (by omega))
      (min res (T k)) (by omega)
    refine ⟨r, ?_, fun z => (hle z).trans (le_min_step (by omega) z)⟩
    rw [rowLoop, if_pos (by omega), h1, pure_bind, hcast, h2, pure_bind, nth_eq hx, pure_bind,
      ← hTk, hr]

/-- **The second loop** takes the minimum over the vertical cuts. -/
theorem columnLoop_eq {T : ℕ → ℤ} (hk : k ≤ d)
    (hT : ∀ j, k ≤ j → j < d → ∃ c1 c2 y, dfs h v a c b j = pure c1 ∧
      dfs h v a (j + 1 : ℕ) b d = pure c2 ∧ v[j]? = some y ∧ T j = c1 + c2 + y) (res : ℤ) :
    ∃ r, columnLoop h v a c b d k res = pure r ∧
      ∀ z, z ≤ r ↔ z ≤ res ∧ ∀ j, k ≤ j → j < d → z ≤ T j := by
  induction hn : d - k generalizing k res with
  | zero =>
    rw [columnLoop, if_neg (by omega)]
    exact ⟨res, rfl, fun z => (and_iff_left fun j hj hjd => by omega).symm⟩
  | succ n ih =>
    obtain ⟨c1, c2, y, h1, h2, hy, hTk⟩ := hT k le_rfl (by omega)
    have hcast : (k : ℤ) + 1 = (k + 1 : ℕ) := by push_cast; rfl
    obtain ⟨r, hr, hle⟩ := ih (k := k + 1) (by omega) (fun j hj => hT j (by omega))
      (min res (T k)) (by omega)
    refine ⟨r, ?_, fun z => (hle z).trans (le_min_step (by omega) z)⟩
    rw [columnLoop, if_pos (by omega), h1, pure_bind, hcast, h2, pure_bind, nth_eq hy, pure_bind,
      ← hTk, hr]

/-- A cut of two pieces whose costs are capped. -/
theorem capped_cut {p p₁ p₂ : Piece} (h₁ : 0 ≤ least p₁) (h₂ : 0 ≤ least p₂) (hx : 0 ≤ x)
    (hp : least p ≤ x + (least p₁ + least p₂)) : capped p ≤ capped p₁ + capped p₂ + x := by
  simp only [capped]
  omega

/-- A piece is cut at no more than its least cost. -/
theorem cut_le {p p₁ p₂ : Piece} (hp : least p = x + (least p₁ + least p₂)) :
    capped p₁ + capped p₂ + x ≤ least p := by
  simp only [capped]
  omega

/-- The cost of a horizontal cut, and of what `dfs` returns for the two pieces. -/
def rowCost (h v : List ℤ) (a b c d i : ℕ) : ℤ := capped ⟨between h a i, between v c d⟩ +
  capped ⟨between h (i + 1) b, between v c d⟩ + h.getD i 0

/-- The cost of a vertical cut, and of what `dfs` returns for the two pieces. -/
def columnCost (h v : List ℤ) (a b c d j : ℕ) : ℤ := capped ⟨between h a b, between v c j⟩ +
  capped ⟨between h a b, between v (j + 1) d⟩ + v.getD j 0

theorem getD_eq (hx : l[k]? = some x) : l.getD k 0 = x := by
  rw [List.getD_eq_getElem?_getD, hx]
  rfl

/-- **The minimum over all cuts**, and `65535`, is the least cost, or `65535`. -/
theorem le_capped_iff (hh : ∀ x ∈ h, 0 ≤ x) (hv : ∀ y ∈ v, 0 ≤ y) (hb : b ≤ h.length)
    (hd : d ≤ v.length) (hunit : a < b ∨ c < d) (z : ℤ) :
    z ≤ capped ⟨between h a b, between v c d⟩ ↔
      (z ≤ 65535 ∧ ∀ i, a ≤ i → i < b → z ≤ rowCost h v a b c d i) ∧
        ∀ j, c ≤ j → j < d → z ≤ columnCost h v a b c d j := by
  have hnonneg : ∀ a b c d, 0 ≤ least ⟨between h a b, between v c d⟩ := fun a b c d =>
    least_nonneg (between_nonneg hh) (between_nonneg hv)
  constructor
  · intro hz
    refine ⟨⟨hz.trans (min_le_left _ _), fun i hi hib => ?_⟩, fun j hj hjd => ?_⟩
    · have hx := List.getElem?_eq_getElem (show i < h.length by omega)
      refine hz.trans (capped_cut (hnonneg _ _ _ _) (hnonneg _ _ _ _) ?_ ?_)
      · rw [getD_eq hx]
        exact hh _ (List.mem_of_getElem? hx)
      · rw [getD_eq hx, between_split hi hib hx]
        exact least_row_le _ _ _ _
    · have hy := List.getElem?_eq_getElem (show j < v.length by omega)
      refine hz.trans (capped_cut (hnonneg _ _ _ _) (hnonneg _ _ _ _) ?_ ?_)
      · rw [getD_eq hy]
        exact hv _ (List.mem_of_getElem? hy)
      · rw [getD_eq hy, between_split hj hjd hy]
        exact least_column_le _ _ _ _
  · rintro ⟨⟨hcap, hrows⟩, hcolumns⟩
    refine le_min hcap ?_
    -- the cut along the most expensive line is one of those that are tried
    rcases exists_greatest (between h a b) (between v c d) with ⟨hh0, hv0⟩ | ⟨x, hx, hmax⟩ |
      ⟨y, hy, hmax⟩
    · have hlen := length_between (a := a) hb
      have hlen' := length_between (a := c) hd
      rw [hh0, List.length_nil] at hlen
      rw [hv0, List.length_nil] at hlen'
      omega
    · obtain ⟨i, hi, hib, hx⟩ := mem_between hx
      refine (hrows i hi hib).trans (cut_le ?_)
      rw [getD_eq hx, between_split hi hib hx]
      exact least_row_eq hmax _ _
    · obtain ⟨j, hj, hjd, hy⟩ := mem_between hy
      refine (hcolumns j hj hjd).trans (cut_le ?_)
      rw [getD_eq hy, between_split hj hjd hy]
      exact least_column_eq hmax _ _

/-- **What `dfs` returns**: the least cost of the piece, or `65535`. -/
theorem dfs_eq (hh : ∀ x ∈ h, 0 ≤ x) (hv : ∀ y ∈ v, 0 ≤ y) (hab : a ≤ b) (hb : b ≤ h.length)
    (hcd : c ≤ d) (hd : d ≤ v.length) :
    dfs h v a c b d = pure (capped ⟨between h a b, between v c d⟩) := by
  induction hn : (b - a) + (d - c) using Nat.strong_induction_on generalizing a b c d with
  | _ n ih =>
    rw [dfs]
    by_cases hunit : a = b ∧ c = d
    · obtain ⟨rfl, rfl⟩ := hunit
      rw [if_pos ⟨rfl, rfl⟩, between_self, between_self]
      rfl
    · have hrows : ∀ i, a ≤ i → i < b → ∃ c1 c2 x, dfs h v a c i d = pure c1 ∧
          dfs h v (i + 1 : ℕ) c b d = pure c2 ∧ h[i]? = some x ∧
            rowCost h v a b c d i = c1 + c2 + x := by
        intro i hi hib
        have hx := List.getElem?_eq_getElem (show i < h.length by omega)
        exact ⟨_, _, _, ih _ (by omega) hi (by omega) hcd hd rfl,
          ih _ (by omega) hib hb hcd hd rfl, hx, by rw [rowCost, getD_eq hx]⟩
      have hcolumns : ∀ j, c ≤ j → j < d → ∃ c1 c2 y, dfs h v a c b j = pure c1 ∧
          dfs h v a (j + 1 : ℕ) b d = pure c2 ∧ v[j]? = some y ∧
            columnCost h v a b c d j = c1 + c2 + y := by
        intro j hj hjd
        have hy := List.getElem?_eq_getElem (show j < v.length by omega)
        exact ⟨_, _, _, ih _ (by omega) hab hb hj (by omega) rfl,
          ih _ (by omega) hab hb hjd hd rfl, hy, by rw [columnCost, getD_eq hy]⟩
      obtain ⟨res, hrow, hle⟩ := rowLoop_eq hab hrows 65535
      obtain ⟨r, hcolumn, hle'⟩ := columnLoop_eq hcd hcolumns res
      rw [if_neg (by omega), hrow, pure_bind, hcolumn]
      refine congrArg pure (eq_of_forall_le_iff fun z => ?_)
      rw [hle', hle, le_capped_iff hh hv hb hd (by omega)]

theorem minimumCostMy_eq (hlim : Limits m n h v) :
    minimumCostMy m n h v = pure (capped ⟨h, v⟩) := by
  have hdfs := dfs_eq (a := 0) (c := 0) hlim.horizontal hlim.vertical (Nat.zero_le _) le_rfl
    (Nat.zero_le _) le_rfl
  rw [between_all, between_all] at hdfs
  rw [minimumCostMy, hlim.rows, hlim.columns, add_sub_cancel_right, add_sub_cancel_right]
  exact hdfs

/-- The function returns the least cost of all orders of cuts. -/
def ReturnsLeast (m n : ℤ) (h v : List ℤ) : Prop :=
  ∃ c, minimumCostMy m n h v = pure c ∧ IsLeast {c | Cuts {⟨h, v⟩} c} c

theorem returnsLeast_iff (hlim : Limits m n h v) :
    ReturnsLeast m n h v ↔ capped ⟨h, v⟩ = least ⟨h, v⟩ := by
  rw [ReturnsLeast, minimumCostMy_eq hlim]
  constructor
  · rintro ⟨c, hc, hleast⟩
    rw [Exec.pure_inj.mp hc, hleast.unique (isLeast_least _)]
  · intro heq
    exact ⟨_, congrArg pure heq, isLeast_least _⟩

/-- **When `minimumCost_my` returns the least cost** of all orders of cuts: exactly if all lines,
and the cheaper one of each pair of a horizontal and a vertical line, cost at most `65535` together.
-/
theorem minimumCostMy_iff (hlim : Limits m n h v) :
    ReturnsLeast m n h v ↔ h.sum + v.sum + (h.map fun x => (v.map (min x)).sum).sum ≤ 65535 := by
  rw [returnsLeast_iff hlim]
  exact min_eq_right_iff

/-- A cake of two rows and three columns. -/
theorem minimumCostMy_iff_two : ReturnsLeast 2 3 [5] [2, 7] :=
  (minimumCostMy_iff ⟨by decide, by decide, by decide, by decide⟩).mpr (by decide)

/-- A single line that costs more than `65535`. -/
theorem not_returnsLeast : ¬ ∀ m n h v, Limits m n h v → ReturnsLeast m n h v := by
  intro hall
  have hlim : Limits 2 1 [65536] [] := ⟨by decide, by decide, by decide, by decide⟩
  exact absurd ((returnsLeast_iff hlim).mp (hall _ _ _ _ hlim)) (by decide)

end MinimumCost

end Candcpp
