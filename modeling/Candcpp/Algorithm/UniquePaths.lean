import Candcpp.Cpp.Grid
import Candcpp.Order.GridPaths

/-!
# Paths around obstacles

The two versions of `63.cpp`, which count the paths from the first cell of a grid to the last one
that go down and to the right only, around obstacles. `uniquePathsWithObstacles_origin` has a table
with a number for each cell. `uniquePathsWithObstacles` has one row of it only: before a cell is
reached, its entry has the number for the cell below.

Both go over the cells from the last one back. A cell adds the numbers for the cell below and the
cell to the right, and a number that is added only if the cell is free is zero otherwise. So **both
count the paths** (`Candcpp.UniquePaths.same_paths`).

The arithmetic is exact. A position is not bounded, since a vector has no more elements than an
`int` counts.
-/

namespace Candcpp

open Cpp

namespace UniquePaths

/-! ### The code -/

/-- `ok && !obstacleGrid[i][j]`. -/
def openAt (g : Grid ℤ) (ok : Prop) [Decidable ok] (i j : ℤ) : Exec Bool := do
  if ok then
    let x ← g.get i j
    pure (decide (x = 0))
  else
    pure false

/-- `if (ok && !obstacleGrid[k][l]) { dp[i][j] += dp[k][l]; }`. -/
def addOpen (g : Grid ℤ) (ok : Prop) [Decidable ok] (i j k l : ℤ) (dp : Grid ℤ) :
    Exec (Grid ℤ) := do
  if ← openAt g ok k l then
    let x ← dp.get i j
    let y ← dp.get k l
    dp.put i j (x + y)
  else
    pure dp

/-- What `uniquePathsWithObstacles_origin` does at a cell. -/
def cellOrigin (g : Grid ℤ) (m n i j : ℤ) (dp : Grid ℤ) : Exec (Grid ℤ) := do
  let x ← g.get i j
  if x ≠ 0 then
    pure dp
  else
    let dp ← addOpen g (i + 1 < m) i j (i + 1) j dp
    addOpen g (j + 1 < n) i j i (j + 1) dp

/-- What `uniquePathsWithObstacles` does at a cell. -/
def cell (g : Grid ℤ) (n i j : ℤ) (dp : Arr ℤ) : Exec (Arr ℤ) := do
  let x ← g.get i j
  if x ≠ 0 then
    dp.putInt j 0
  else
    if ← openAt g (j + 1 < n) i (j + 1) then
      let x ← dp.getInt j
      let y ← dp.getInt (j + 1)
      dp.putInt j (x + y)
    else
      pure dp

section Loops

variable {τ : Type} (visit : ℤ → ℤ → τ → Exec τ)

/-- `for (int j = n - 1; j >= 0; j--)`, of both versions. -/
def colLoop (i j : ℤ) (dp : τ) : Exec τ := do
  let +zeta colLoop : type_of% colLoop := by apply colLoop
  if j ≥ 0 then
    let dp ← visit i j dp
    colLoop i (j - 1) dp
  else
    pure dp
partial_fixpoint

/-- `for (int i = m - 1; i >= 0; i--)`, of both versions. -/
def rowLoop (n i : ℤ) (dp : τ) : Exec τ := do
  let +zeta rowLoop : type_of% rowLoop := by apply rowLoop
  if i ≥ 0 then
    let dp ← colLoop visit i (n - 1) dp
    rowLoop n (i - 1) dp
  else
    pure dp
partial_fixpoint

end Loops

/-- `uniquePathsWithObstacles_origin`. -/
def uniquePathsWithObstaclesOrigin (g : Grid ℤ) : Exec ℤ := do
  let m : ℤ := g.rows
  let n : ℤ := g.cols
  let dp ← (Grid.fill g.rows g.cols 0).put (m - 1) (n - 1) 1
  let x ← g.get (m - 1) (n - 1)
  let dp ← if x ≠ 0 then dp.put (m - 1) (n - 1) 0 else pure dp
  let dp ← rowLoop (cellOrigin g m n) n (m - 1) dp
  dp.get 0 0

/-- `uniquePathsWithObstacles`. -/
def uniquePathsWithObstacles (g : Grid ℤ) : Exec ℤ := do
  let m : ℤ := g.rows
  let n : ℤ := g.cols
  let dp ← (Arr.fill g.cols 0).putInt (n - 1) 1
  let x ← g.get (m - 1) (n - 1)
  let dp ← if x ≠ 0 then dp.putInt (n - 1) 0 else pure dp
  let dp ← rowLoop (cell g n) n (m - 1) dp
  dp.getInt 0

/-! ### The cells -/

/-- A cell of the grid without an obstacle. -/
def Free (g : Grid ℤ) (i j : ℕ) : Prop := i < g.rows ∧ j < g.cols ∧ g.data i j = 0

instance (g : Grid ℤ) (i j : ℕ) : Decidable (Free g i j) := inferInstanceAs (Decidable (_ ∧ _))

/-- The number of paths from a cell to the last one. -/
noncomputable def count (g : Grid ℤ) (i j : ℕ) : ℤ := ways (Free g) (g.rows - 1) (g.cols - 1) i j

/-- What is in the last entry at first. -/
def start (g : Grid ℤ) (i j : ℕ) : ℤ :=
  if i = g.rows - 1 ∧ j = g.cols - 1 ∧ Free g i j then 1 else 0

variable {g dp : Grid ℤ} {a : Arr ℤ} {i j k l m n : ℕ} {τ : Type} {visit : ℤ → ℤ → τ → Exec τ}
  {t : τ}

theorem get_free (hi : i < g.rows) (hj : j < g.cols) :
    ∃ x, g.get i j = pure x ∧ (x = 0 ↔ Free g i j) :=
  ⟨g.data i j, Grid.get_eq hi hj, ⟨fun h => ⟨hi, hj, h⟩, fun h => h.2.2⟩⟩

theorem count_eq_zero (h : ¬ Free g i j) : count g i j = 0 := by
  rw [count, ways_eq_zero h, Nat.cast_zero]

/-- **The number for a free cell.** -/
theorem count_eq (h : Free g i j) :
    count g i j = start g i j + count g (i + 1) j + count g i (j + 1) := by
  rw [count, ways_eq h, start, count, count]
  push_cast
  simp only [h, and_true, add_assoc]

/-- What is in the last entry at first is `1`, unless the cell is not free. -/
theorem start_last (hi : i + 1 = g.rows) (hj : j + 1 = g.cols) :
    start g i j = if Free g i j then 1 else 0 := by
  rw [start, show g.rows - 1 = i by omega, show g.cols - 1 = j by omega]
  simp only [true_and]

theorem start_of_not_free (h : ¬ Free g i j) : start g i j = 0 := if_neg fun hs => h hs.2.2

/-- **The test before an addition**: what is added is the number for the cell in any case. -/
theorem openAt_eq (ok : Prop) [Decidable ok] (hok : ok ↔ i < g.rows ∧ j < g.cols) :
    ∃ b, openAt g ok i j = pure b ∧ (b = true ↔ Free g i j) := by
  rw [openAt]
  split_ifs with h
  · obtain ⟨x, hx, hfree⟩ := get_free (hok.mp h).1 (hok.mp h).2
    rw [hx, pure_bind]
    exact ⟨_, rfl, decide_eq_true_iff.trans hfree⟩
  · exact ⟨false, rfl, iff_of_false Bool.false_ne_true fun hf => h (hok.mpr ⟨hf.1, hf.2.1⟩)⟩

/-! ### The loops -/

/-- **The loop over a row**: `I j` holds when the cells from `j` on have been visited. -/
theorem colLoop_eq (I : ℕ → τ → Prop) (hj : j ≤ n) (ht : I j t)
    (hstep : ∀ j < n, ∀ t, I (j + 1) t → ∃ t', visit i j t = pure t' ∧ I j t') :
    ∃ t', colLoop visit i ((j : ℤ) - 1) t = pure t' ∧ I 0 t' := by
  induction j generalizing t with
  | zero => exact ⟨t, by rw [colLoop, if_neg (by omega)], ht⟩
  | succ j ih =>
    obtain ⟨t', hrun, ht'⟩ := hstep j hj t ht
    rw [colLoop, if_pos (by omega), show ((j + 1 : ℕ) : ℤ) - 1 = j by push_cast; ring, hrun,
      pure_bind]
    exact ih (by omega) ht'

/-- **The loop over the rows**: `I i j` holds when the cells of the row `i` from `j` on have been
visited, and those of the rows behind it. -/
theorem rowLoop_eq (visit : ℤ → ℤ → τ → Exec τ) (I : ℕ → ℕ → τ → Prop) (hi : i < m) (ht : I i n t)
    (hrow : ∀ i t, i + 1 < m → I (i + 1) 0 t → I i n t)
    (hstep : ∀ i < m, ∀ j < n, ∀ t, I i (j + 1) t → ∃ t', visit i j t = pure t' ∧ I i j t') :
    ∃ t', rowLoop visit n i t = pure t' ∧ I 0 0 t' := by
  induction i generalizing t with
  | zero =>
    obtain ⟨t', hrun, ht'⟩ := colLoop_eq (I 0) le_rfl ht (hstep 0 hi)
    refine ⟨t', ?_, ht'⟩
    rw [rowLoop, if_pos (by omega), hrun, pure_bind, rowLoop, if_neg (by omega)]
  | succ i ih =>
    obtain ⟨t', hrun, ht'⟩ := colLoop_eq (I (i + 1)) le_rfl ht (hstep (i + 1) hi)
    rw [rowLoop, if_pos (by omega), hrun, pure_bind,
      show ((i + 1 : ℕ) : ℤ) - 1 = i by push_cast; ring]
    exact ih (by omega) (hrow i t' hi ht')

/-! ### The table -/

/-- **The table** when the cells of the row `i` from `j` on have been visited, and those of the rows
behind it. -/
structure Table (g : Grid ℤ) (i j : ℕ) (dp : Grid ℤ) : Prop where
  rows : dp.rows = g.rows
  cols : dp.cols = g.cols
  visited : ∀ k l, k < g.rows → l < g.cols → (i < k ∨ k = i ∧ j ≤ l) → dp.data k l = count g k l
  others : ∀ k l, (k < i ∨ k = i ∧ l < j) → dp.data k l = start g k l

/-- **An addition**: of the number for a cell, which is zero if it is not free. -/
theorem addOpen_eq (dp : Grid ℤ) (ok : Prop) [Decidable ok] (hok : ok ↔ k < g.rows ∧ l < g.cols)
    (hi : i < dp.rows) (hj : j < dp.cols) (hrows : dp.rows = g.rows) (hcols : dp.cols = g.cols)
    (hkl : k < g.rows → l < g.cols → dp.data k l = count g k l) :
    addOpen g ok i j k l dp = pure (dp.set i j (dp.data i j + count g k l)) := by
  obtain ⟨b, hb, hfree⟩ := openAt_eq ok hok
  rw [addOpen, hb, pure_bind]
  by_cases hf : Free g k l
  · rw [if_pos (hfree.mpr hf), Grid.get_eq hi hj, pure_bind,
      Grid.get_eq (hrows ▸ hf.1) (hcols ▸ hf.2.1), pure_bind, Grid.put_eq hi hj,
      hkl hf.1 hf.2.1]
  · rw [if_neg (mt hfree.mp hf), count_eq_zero hf, add_zero, Grid.set_self]

/-- A cell is visited. -/
theorem Table.set (h : Table g i (j + 1) dp) : Table g i j (dp.set i j (count g i j)) where
  rows := h.rows
  cols := h.cols
  visited := fun k l hk hl hkl => by
    rw [Grid.data_set]
    split_ifs with heq
    · rw [heq.1, heq.2]
    · exact h.visited k l hk hl (by omega)
  others := fun k l hkl => by
    rw [Grid.data_set_of_ne _ _ (by omega)]
    exact h.others k l (by omega)

/-- **The step of the first version.** -/
theorem cellOrigin_eq (hi : i < g.rows) (hj : j < g.cols) (h : Table g i (j + 1) dp) :
    ∃ dp', cellOrigin g g.rows g.cols i j dp = pure dp' ∧ Table g i j dp' := by
  obtain ⟨x, hx, hfree⟩ := get_free hi hj
  have hrows : i < dp.rows := h.rows ▸ hi
  have hcols : j < dp.cols := h.cols ▸ hj
  have hold : dp.data i j = start g i j := h.others i j (.inr ⟨rfl, Nat.lt_succ_self j⟩)
  refine ⟨_, ?_, h.set⟩
  rw [cellOrigin, hx, pure_bind]
  by_cases hf : Free g i j
  · have hbelow := addOpen_eq dp (k := i + 1) (l := j) ((i : ℤ) + 1 < g.rows) (by omega) hrows hcols
      h.rows h.cols fun hk hl => h.visited (i + 1) j hk hl (.inl (Nat.lt_succ_self i))
    have hbehind := addOpen_eq (dp.set i j (start g i j + count g (i + 1) j)) (i := i) (j := j)
      (k := i) (l := j + 1) ((j : ℤ) + 1 < g.cols) (by omega) hrows hcols h.rows h.cols
      fun hk hl => by
        rw [Grid.data_set_of_ne _ _ (.inr (Nat.succ_ne_self j))]
        exact h.visited i (j + 1) hk hl (.inr ⟨rfl, le_rfl⟩)
    rw [Grid.set_set, Grid.data_set, if_pos ⟨rfl, rfl⟩, ← count_eq hf] at hbehind
    push_cast at hbelow hbehind
    rw [if_neg (not_not.mpr (hfree.mpr hf)), hbelow, pure_bind, hold, hbehind]
  · rw [if_pos (mt hfree.mp hf), count_eq_zero hf, ← start_of_not_free hf, ← hold, Grid.set_self]

/-- The table before the loops. -/
theorem table_start (hm : m + 1 = g.rows) (hn : n + 1 = g.cols) :
    Table g m g.cols ((Grid.fill g.rows g.cols 0).set m n (start g m n)) where
  rows := rfl
  cols := rfl
  visited := fun k l hk hl hkl => by omega
  others := fun k l hkl => by
    rw [Grid.data_set]
    split_ifs with heq
    · rw [heq.1, heq.2]
    · exact (if_neg fun hs => heq (by omega)).symm

/-- **The first version counts the paths.** -/
theorem uniquePathsWithObstaclesOrigin_eq (hm : 0 < g.rows) (hn : 0 < g.cols) :
    uniquePathsWithObstaclesOrigin g = pure (count g 0 0) := by
  obtain ⟨m, hm'⟩ := Nat.exists_eq_succ_of_ne_zero hm.ne'
  obtain ⟨n, hn'⟩ := Nat.exists_eq_succ_of_ne_zero hn.ne'
  have hlast : (g.rows : ℤ) - 1 = m := by omega
  have hlast' : (g.cols : ℤ) - 1 = n := by omega
  obtain ⟨x, hx, hfree⟩ := get_free (g := g) (i := m) (j := n) (by omega) (by omega)
  obtain ⟨dp, hrun, h⟩ := rowLoop_eq (cellOrigin g g.rows g.cols) (Table g)
    (show m < g.rows by omega) (table_start hm'.symm hn'.symm)
    (fun i dp hi h => ⟨h.rows, h.cols, fun k l hk hl hkl => h.visited k l hk hl (by omega),
      fun k l hkl => h.others k l (by omega)⟩)
    fun i hi j hj dp h => cellOrigin_eq hi hj h
  have hget : dp.get (0 : ℕ) (0 : ℕ) = pure (dp.data 0 0) :=
    Grid.get_eq (h.rows ▸ hm) (h.cols ▸ hn)
  rw [Nat.cast_zero, h.visited 0 0 hm hn (.inr ⟨rfl, le_rfl⟩)] at hget
  rw [start_last hm'.symm hn'.symm] at hrun
  have hput : ∀ y : ℤ, ((Grid.fill g.rows g.cols 0).set m n y).put m n 0 =
      pure ((Grid.fill g.rows g.cols 0).set m n 0) := by
    intro y
    rw [Grid.put_eq (by simp; omega) (by simp; omega), Grid.set_set]
  rw [uniquePathsWithObstaclesOrigin]
  dsimp only
  rw [hlast, hlast', Grid.put_eq (by simp; omega) (by simp; omega), pure_bind, hx, pure_bind]
  by_cases hf : Free g m n
  · rw [if_pos hf] at hrun
    rw [if_neg (not_not.mpr (hfree.mpr hf)), pure_bind, hrun, pure_bind, hget]
  · rw [if_neg hf] at hrun
    rw [if_pos (mt hfree.mp hf), hput, pure_bind, hrun, pure_bind, hget]

/-! ### One row -/

/-- **The row** when the cells of the row `i` from `j` on have been visited: the other entries have
the numbers of the paths that go down first. -/
structure Row (g : Grid ℤ) (i j : ℕ) (dp : Arr ℤ) : Prop where
  size : dp.size = g.cols
  visited : ∀ l < g.cols, j ≤ l → dp.data l = count g i l
  others : ∀ l < j, dp.data l = start g i l + count g (i + 1) l

/-- A cell is visited. -/
theorem Row.set (h : Row g i (j + 1) a) :
    Row g i j { a with data := Function.update a.data j (count g i j) } where
  size := h.size
  visited := fun l hl hjl => by
    rcases eq_or_ne l j with rfl | hne
    · exact Function.update_self ..
    · exact (Function.update_of_ne hne ..).trans (h.visited l hl (by omega))
  others := fun l hl => (Function.update_of_ne hl.ne ..).trans (h.others l (by omega))

/-- **The step of the second version.** -/
theorem cell_eq (hi : i < g.rows) (hj : j < g.cols) (h : Row g i (j + 1) a) :
    ∃ a', cell g g.cols i j a = pure a' ∧ Row g i j a' := by
  obtain ⟨x, hx, hfree⟩ := get_free hi hj
  have hsize : j < a.size := h.size ▸ hj
  have hold : a.data j = start g i j + count g (i + 1) j := h.others j (Nat.lt_succ_self j)
  refine ⟨_, ?_, h.set⟩
  rw [cell, hx, pure_bind]
  by_cases hf : Free g i j
  · obtain ⟨b, hb, hnext⟩ := openAt_eq (g := g) (i := i) (j := j + 1) ((j : ℤ) + 1 < g.cols)
      (by omega)
    push_cast at hb
    rw [if_neg (not_not.mpr (hfree.mpr hf)), hb, pure_bind, count_eq hf]
    by_cases hf' : Free g i (j + 1)
    · have hbehind : a.getInt ((j : ℤ) + 1) = pure (count g i (j + 1)) := by
        rw [← Nat.cast_succ, Arr.getInt_eq (h.size ▸ hf'.2.1), h.visited _ hf'.2.1 le_rfl]
      rw [if_pos (hnext.mpr hf'), Arr.getInt_eq hsize, pure_bind, hbehind, pure_bind,
        Arr.putInt_eq hsize, hold]
    · rw [if_neg (mt hnext.mp hf'), count_eq_zero hf', add_zero, ← hold, Function.update_eq_self]
  · rw [if_pos (mt hfree.mp hf), Arr.putInt_eq hsize, count_eq_zero hf]

/-- The row before the loops. -/
theorem row_start (hm : m + 1 = g.rows) (hn : n + 1 = g.cols) :
    Row g m g.cols ⟨Function.update (Arr.fill g.cols 0).data n (start g m n), g.cols⟩ where
  size := rfl
  visited := fun l hl hnl => by omega
  others := fun l hl => by
    have hbelow : count g (m + 1) l = 0 := count_eq_zero fun hf => by
      have hlt := hf.1
      omega
    rw [hbelow, add_zero]
    rcases eq_or_ne l n with rfl | hne
    · exact Function.update_self ..
    · refine (Function.update_of_ne hne ..).trans (if_neg fun hs => hne ?_).symm
      omega

/-- **The second version counts the paths.** -/
theorem uniquePathsWithObstacles_eq (hm : 0 < g.rows) (hn : 0 < g.cols) :
    uniquePathsWithObstacles g = pure (count g 0 0) := by
  obtain ⟨m, hm'⟩ := Nat.exists_eq_succ_of_ne_zero hm.ne'
  obtain ⟨n, hn'⟩ := Nat.exists_eq_succ_of_ne_zero hn.ne'
  have hlast : (g.rows : ℤ) - 1 = m := by omega
  have hlast' : (g.cols : ℤ) - 1 = n := by omega
  obtain ⟨x, hx, hfree⟩ := get_free (g := g) (i := m) (j := n) (by omega) (by omega)
  obtain ⟨dp, hrun, h⟩ := rowLoop_eq (cell g g.cols) (Row g)
    (show m < g.rows by omega) (row_start hm'.symm hn'.symm)
    (fun i dp hi h => ⟨h.size, fun l hl hnl => by omega, fun l hl => by
      have hnone : start g i l = 0 := if_neg fun hs => by omega
      rw [hnone, zero_add, h.visited l hl (Nat.zero_le l)]⟩)
    fun i hi j hj dp h => cell_eq hi hj h
  have hget : dp.getInt (0 : ℕ) = pure (dp.data 0) := Arr.getInt_eq (h.size ▸ hn)
  rw [Nat.cast_zero, h.visited 0 hn le_rfl] at hget
  rw [start_last hm'.symm hn'.symm] at hrun
  have hput : ∀ (d : ℕ → ℤ) (y : ℤ), (Arr.mk d g.cols).putInt n y =
      pure ⟨Function.update d n y, g.cols⟩ := fun d y => Arr.putInt_eq (by dsimp only; omega) y
  have hfirst : (Arr.fill g.cols (0 : ℤ)).putInt n 1 =
      pure ⟨Function.update (Arr.fill g.cols 0).data n 1, g.cols⟩ := hput _ 1
  rw [uniquePathsWithObstacles]
  dsimp only
  rw [hlast, hlast', hfirst, pure_bind, hx, pure_bind]
  by_cases hf : Free g m n
  · rw [if_pos hf] at hrun
    rw [if_neg (not_not.mpr (hfree.mpr hf)), pure_bind, hrun, pure_bind, hget]
  · rw [if_neg hf] at hrun
    rw [if_pos (mt hfree.mp hf), hput, pure_bind, Function.update_idem, hrun, pure_bind, hget]

/-- **Both versions count the paths** from the first cell to the last one that avoid the obstacles,
of which there are none if one of these two cells is not free. -/
theorem same_paths (hm : 0 < g.rows) (hn : 0 < g.cols) : ∃ k : ℕ,
    uniquePathsWithObstaclesOrigin g = pure (k : ℤ) ∧ uniquePathsWithObstacles g = pure (k : ℤ) ∧
      k = (paths (Free g) (g.rows - 1) (g.cols - 1) 0 0).ncard ∧
        (¬ Free g 0 0 ∨ ¬ Free g (g.rows - 1) (g.cols - 1) → k = 0) := by
  refine ⟨ways (Free g) (g.rows - 1) (g.cols - 1) 0 0, uniquePathsWithObstaclesOrigin_eq hm hn,
    uniquePathsWithObstacles_eq hm hn, rfl, ?_⟩
  rintro (h | h)
  · exact ways_eq_zero h
  · exact ways_eq_zero_of_last h

/-- A grid with an obstacle in the middle. -/
def ring : Grid ℤ where
  data := fun i j => if i = 1 ∧ j = 1 then 1 else 0
  rows := 3
  cols := 3

theorem same_paths_ring : ∃ k : ℕ, uniquePathsWithObstaclesOrigin ring = pure (k : ℤ) ∧
    uniquePathsWithObstacles ring = pure (k : ℤ) ∧ k = (paths (Free ring) 2 2 0 0).ncard ∧
      (¬ Free ring 0 0 ∨ ¬ Free ring 2 2 → k = 0) := same_paths (by decide) (by decide)

end UniquePaths

end Candcpp
