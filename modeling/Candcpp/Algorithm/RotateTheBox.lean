import Candcpp.Cpp.Grid
import Candcpp.Order.Sliding

/-!
# Stones in a box

The program of `1861.cpp`, which turns a box clockwise and lets the stones in it fall. It goes over
each row from its end, writes every cell into the turned box, and lets a stone (`#`) fall over the
free cells (`.`) in front of it before it is written. The stone is moved in the box as well, so that
the stones before it stop there.

Of a row, the cells that have been visited are at rest, in the box as in the turned one
(`Candcpp.RotateTheBox.Fallen`). So **each column of the turned box is a row at rest**
(`Candcpp.RotateTheBox.rotateTheBox_eq`), and nothing is left of what was in the turned box at
first.

A position is not bounded, since a vector has no more elements than an `int` counts.
-/

namespace Candcpp

open Cpp

namespace RotateTheBox

/-! ### The code -/

/-- `while (t + 1 < n && boxGrid[i][t+1] == '.')`, which leaves behind `t`. -/
def fallLoop (boxGrid : Grid Char) (i n t : ℤ) : Exec ℤ := do
  let +zeta fallLoop : type_of% fallLoop := by apply fallLoop
  if t + 1 < n then
    if (← boxGrid.get i (t + 1)) = '.' then
      fallLoop boxGrid i n (t + 1)
    else
      pure t
  else
    pure t
partial_fixpoint

/-- What is done at a cell: `res` and `boxGrid` after it. -/
def visit (m n i j : ℤ) (res boxGrid : Grid Char) : Exec (Grid Char × Grid Char) := do
  let ch ← boxGrid.get i j
  if ch = '.' ∨ ch = '*' then
    let res ← res.put j (m - 1 - i) ch
    pure (res, boxGrid)
  else
    let t ← fallLoop boxGrid i n j
    let res ← res.put t (m - 1 - i) ch
    if t ≠ j then
      let res ← res.put j (m - 1 - i) '.'
      let boxGrid ← boxGrid.put i j '.'
      let boxGrid ← boxGrid.put i t '#'
      pure (res, boxGrid)
    else
      pure (res, boxGrid)

/-- `for (int j = n-1; j >= 0; --j)`. -/
def colLoop (m n i j : ℤ) (res boxGrid : Grid Char) : Exec (Grid Char × Grid Char) := do
  let +zeta colLoop : type_of% colLoop := by apply colLoop
  if j ≥ 0 then
    let (res, boxGrid) ← visit m n i j res boxGrid
    colLoop m n i (j - 1) res boxGrid
  else
    pure (res, boxGrid)
partial_fixpoint

/-- `for (int i = 0; i < m; ++i)`. -/
def rowLoop (m n i : ℤ) (res boxGrid : Grid Char) : Exec (Grid Char × Grid Char) := do
  let +zeta rowLoop : type_of% rowLoop := by apply rowLoop
  if i < m then
    let (res, boxGrid) ← colLoop m n i (n - 1) res boxGrid
    rowLoop m n (i + 1) res boxGrid
  else
    pure (res, boxGrid)
partial_fixpoint

/-- `rotateTheBox` from the loops on, with the turned box `res`. -/
def rotate (res boxGrid : Grid Char) : Exec (Grid Char × Grid Char) := do
  let n ← boxGrid.firstSize
  rowLoop boxGrid.rows n 0 res boxGrid

/-- `rotateTheBox`: `res`, and what it leaves behind in `boxGrid`. -/
def rotateTheBox (boxGrid : Grid Char) : Exec (Grid Char × Grid Char) :=
  rotate (Grid.fill boxGrid.cols boxGrid.rows (Char.ofNat 0)) boxGrid

/-! ### A stone that falls -/

/-- A cell holds a stone, or an obstacle, or is free. -/
def Cell (ch : Char) : Prop := ch = '#' ∨ ch = '*' ∨ ch = '.'

variable {box box' box₀ res res' res₀ : Grid Char} {c i j k m n r t : ℕ}

/-- **A stone falls** over the free cells in front of it. -/
theorem fallLoop_eq (hi : i < box.rows) (ht : t + r + 1 = box.cols) :
    ∃ k ≤ r, fallLoop box i box.cols t = pure ((t + k : ℕ) : ℤ) ∧
      (∀ l < k, (Grid.stretch (box.data i) (t + 1) r)[l]? = some '.') ∧
      (Grid.stretch (box.data i) (t + 1) r)[k]? ≠ some '.' := by
  induction r generalizing t with
  | zero =>
    refine ⟨0, le_rfl, ?_, fun l hl => absurd hl (Nat.not_lt_zero l), nofun⟩
    rw [fallLoop, if_neg (by omega), Nat.add_zero]
  | succ r ih =>
    rw [fallLoop, if_pos (by omega), ← Nat.cast_succ, Grid.get_eq hi (by omega), pure_bind]
    split_ifs with hfree
    · obtain ⟨k, hk, hrun, hover, hstop⟩ := ih (t := t + 1) (by omega)
      rw [Grid.stretch_succ]
      refine ⟨k + 1, Nat.succ_le_succ hk, hrun.trans (by rw [Nat.add_right_comm]; rfl), ?_, ?_⟩
      · intro l hl
        cases l with
        | zero => exact congrArg some hfree
        | succ l => exact hover l (Nat.lt_of_succ_lt_succ hl)
      · exact hstop
    · refine ⟨0, Nat.zero_le _, by rw [Nat.add_zero], fun l hl => absurd hl (Nat.not_lt_zero l), ?_⟩
      rw [Grid.stretch_succ]
      exact fun h => hfree (Option.some.inj h)

/-- **A row** of which the cells from `j` on have been visited: `r` cells, which are at rest now, in
the row `i` of the box as in the column `c` of the turned one. -/
structure Fallen (c i j r : ℕ) (res₀ box₀ res box : Grid Char) : Prop where
  res_rows : res.rows = res₀.rows
  res_cols : res.cols = res₀.cols
  box_rows : box.rows = box₀.rows
  box_cols : box.cols = box₀.cols
  turned : Grid.stretch (res.down c) j r = settle '#' '.' (Grid.stretch (box₀.data i) j r)
  moved : Grid.stretch (box.data i) j r = settle '#' '.' (Grid.stretch (box₀.data i) j r)
  before : ∀ l < j, box.data i l = box₀.data i l
  columns : ∀ d, d ≠ c → res.down d = res₀.down d
  rows : ∀ k, k ≠ i → box.data k = box₀.data k

/-- A row of which no cell has been visited. -/
theorem Fallen.start (c i j : ℕ) (res box : Grid Char) : Fallen c i j 0 res box res box where
  res_rows := rfl
  res_cols := rfl
  box_rows := rfl
  box_cols := rfl
  turned := rfl
  moved := rfl
  before := fun _ _ => rfl
  columns := fun _ _ => rfl
  rows := fun _ _ => rfl

/-- **An obstacle, or a free cell**, is copied. -/
theorem Fallen.copy (h : Fallen c i (j + 1) r res₀ box₀ res box) (hne : box₀.data i j ≠ '#') :
    Fallen c i j (r + 1) res₀ box₀ (res.set j c (box₀.data i j)) box where
  res_rows := h.res_rows
  res_cols := h.res_cols
  box_rows := h.box_rows
  box_cols := h.box_cols
  turned := by
    rw [Grid.down_set, Grid.stretch_succ, Function.update_self, Grid.stretch_succ,
      settle_cons_of_ne hne, ← h.turned]
    refine congrArg (_ :: ·) (Grid.stretch_congr fun k hk _ => ?_)
    exact Function.update_of_ne (by omega) _ _
  moved := by
    rw [Grid.stretch_succ, Grid.stretch_succ, settle_cons_of_ne hne, h.moved,
      h.before j (Nat.lt_succ_self j)]
  before := fun l hl => h.before l (hl.trans (Nat.lt_succ_self j))
  columns := fun d hd => (Grid.down_set_of_ne hd _ _ _).trans (h.columns d hd)
  rows := h.rows

/-- **A stone that stays** is copied. -/
theorem Fallen.stay (h : Fallen c i (j + 1) r res₀ box₀ res box) (hs : box₀.data i j = '#')
    (hstop : (Grid.stretch (box.data i) (j + 1) r)[0]? ≠ some '.') :
    Fallen c i j (r + 1) res₀ box₀ (res.set j c '#') box := by
  have hsettle : settle '#' '.' (Grid.stretch (box₀.data i) j (r + 1)) =
      '#' :: settle '#' '.' (Grid.stretch (box₀.data i) (j + 1) r) := by
    rw [Grid.stretch_succ, hs, settle_cons_stone, ← h.moved,
      place_eq (k := 0) (fun l hl => absurd hl (Nat.not_lt_zero l)) hstop, List.set_cons_zero]
  exact {
    res_rows := h.res_rows
    res_cols := h.res_cols
    box_rows := h.box_rows
    box_cols := h.box_cols
    turned := by
      rw [Grid.down_set, Grid.stretch_succ, Function.update_self, hsettle, ← h.turned]
      refine congrArg (_ :: ·) (Grid.stretch_congr fun k hk _ => ?_)
      exact Function.update_of_ne (by omega) _ _
    moved := by rw [Grid.stretch_succ, h.before j (Nat.lt_succ_self j), hs, hsettle, h.moved]
    before := fun l hl => h.before l (hl.trans (Nat.lt_succ_self j))
    columns := fun d hd => (Grid.down_set_of_ne hd _ _ _).trans (h.columns d hd)
    rows := h.rows }

/-- **A stone that falls** leaves a free cell. -/
theorem Fallen.fall (h : Fallen c i (j + 1) r res₀ box₀ res box) (hs : box₀.data i j = '#')
    (hover : ∀ l < k + 1, (Grid.stretch (box.data i) (j + 1) r)[l]? = some '.')
    (hstop : (Grid.stretch (box.data i) (j + 1) r)[k + 1]? ≠ some '.') :
    Fallen c i j (r + 1) res₀ box₀ ((res.set (j + (k + 1)) c '#').set j c '.')
      ((box.set i j '.').set i (j + (k + 1)) '#') := by
  have hsettle : settle '#' '.' (Grid.stretch (box₀.data i) j (r + 1)) =
      '.' :: (settle '#' '.' (Grid.stretch (box₀.data i) (j + 1) r)).set k '#' := by
    rw [Grid.stretch_succ, hs, settle_cons_stone, ← h.moved, place_eq hover hstop,
      List.set_cons_succ]
  exact {
    res_rows := h.res_rows
    res_cols := h.res_cols
    box_rows := h.box_rows
    box_cols := h.box_cols
    turned := by
      rw [Grid.down_set, Grid.stretch_succ, Function.update_self, hsettle, ← h.turned,
        ← Grid.stretch_update, Grid.down_set]
      refine congrArg (_ :: ·) (Grid.stretch_congr fun l hl _ => ?_)
      rw [Function.update_of_ne (by omega), show j + 1 + k = j + (k + 1) by omega]
    moved := by
      rw [Grid.data_set_row, Grid.data_set_row, Grid.stretch_succ, hsettle, ← h.moved,
        ← Grid.stretch_update, Function.update_of_ne (by omega), Function.update_self]
      refine congrArg (_ :: ·) (Grid.stretch_congr fun l hl _ => ?_)
      rw [show j + 1 + k = j + (k + 1) by omega, Function.update_comm (by omega),
        Function.update_of_ne (by omega)]
    before := fun l hl => by
      rw [Grid.data_set_row, Grid.data_set_row, Function.update_of_ne (by omega),
        Function.update_of_ne (by omega), h.before l (by omega)]
    columns := fun d hd => by
      rw [Grid.down_set_of_ne hd, Grid.down_set_of_ne hd, h.columns d hd]
    rows := fun l hl => by
      rw [Grid.data_set_row_of_ne hl, Grid.data_set_row_of_ne hl, h.rows l hl] }

/-- **A cell is visited.** -/
theorem visit_eq (hcells : ∀ l < box₀.cols, Cell (box₀.data i l))
    (hi : i < box₀.rows) (hj : j + r + 1 = box₀.cols) (hrows : res₀.rows = box₀.cols)
    (hcols : res₀.cols = box₀.rows) (hc : c + i + 1 = box₀.rows)
    (h : Fallen c i (j + 1) r res₀ box₀ res box) :
    ∃ res' box', visit box₀.rows box₀.cols i j res box = pure (res', box') ∧
      Fallen c i j (r + 1) res₀ box₀ res' box' := by
  have hbr := h.box_rows
  have hbc := h.box_cols
  have hrr := h.res_rows
  have hrc := h.res_cols
  rw [visit, Grid.get_eq (by omega) (by omega), pure_bind, h.before j (Nat.lt_succ_self j),
    show (box₀.rows : ℤ) - 1 - i = c by omega]
  rcases hcells j (by omega) with hs | hfixed
  · obtain ⟨k, hk, hrun, hover, hstop⟩ := fallLoop_eq (t := j) (r := r)
      (show i < box.rows by omega) (by omega)
    rw [hbc] at hrun
    rw [if_neg (by rw [hs]; decide), hrun, pure_bind,
      Grid.put_eq (by omega) (by omega), pure_bind, hs]
    cases k with
    | zero =>
      rw [if_neg (by omega)]
      exact ⟨_, _, rfl, h.stay hs hstop⟩
    | succ k =>
      rw [if_pos (by omega), Grid.put_eq (by rw [Grid.rows_set]; omega)
        (by rw [Grid.cols_set]; omega), pure_bind, Grid.put_eq (by omega) (by omega), pure_bind,
        Grid.put_eq (by rw [Grid.rows_set]; omega) (by rw [Grid.cols_set]; omega), pure_bind]
      exact ⟨_, _, rfl, h.fall hs hover hstop⟩
  · rw [if_pos hfixed.symm, Grid.put_eq (by omega) (by omega), pure_bind]
    exact ⟨_, _, rfl, h.copy fun hs => by rw [hs] at hfixed; exact absurd hfixed (by decide)⟩

/-- **The loop over a row** visits its cells from the last one back. -/
theorem colLoop_eq (hcells : ∀ l < box₀.cols, Cell (box₀.data i l))
    (hi : i < box₀.rows) (hj : j + r = box₀.cols) (hrows : res₀.rows = box₀.cols)
    (hcols : res₀.cols = box₀.rows) (hc : c + i + 1 = box₀.rows)
    (h : Fallen c i j r res₀ box₀ res box) :
    ∃ res' box', colLoop box₀.rows box₀.cols i ((j : ℤ) - 1) res box = pure (res', box') ∧
      Fallen c i 0 box₀.cols res₀ box₀ res' box' := by
  induction j generalizing r res box with
  | zero =>
    obtain rfl : r = box₀.cols := by omega
    exact ⟨res, box, by rw [colLoop, if_neg (by omega)], h⟩
  | succ j ih =>
    obtain ⟨res', box', hrun, h'⟩ := visit_eq hcells hi (by omega) hrows hcols hc h
    rw [colLoop, if_pos (by omega), show ((j + 1 : ℕ) : ℤ) - 1 = j by omega, hrun, pure_bind]
    exact ih (by omega) h'

/-! ### All rows -/

/-- **The box** when the first `i` rows have been visited. -/
structure Turned (i : ℕ) (box₀ res box : Grid Char) : Prop where
  res_rows : res.rows = box₀.cols
  res_cols : res.cols = box₀.rows
  box_rows : box.rows = box₀.rows
  box_cols : box.cols = box₀.cols
  turned : ∀ k < i, ∀ c, c + k + 1 = box₀.rows → res.col c = settle '#' '.' (box₀.row k)
  moved : ∀ k < i, box.row k = settle '#' '.' (box₀.row k)
  rows : ∀ k, i ≤ k → box.data k = box₀.data k

/-- **A row is visited.** -/
theorem Turned.step (h : Turned i box₀ res box) (hc : c + i + 1 = box₀.rows)
    (hf : Fallen c i 0 box₀.cols res box res' box') : Turned (i + 1) box₀ res' box' where
  res_rows := hf.res_rows.trans h.res_rows
  res_cols := hf.res_cols.trans h.res_cols
  box_rows := hf.box_rows.trans h.box_rows
  box_cols := hf.box_cols.trans h.box_cols
  turned := fun k hk d hd => by
    rcases Nat.lt_succ_iff_lt_or_eq.mp hk with hlt | rfl
    · rw [← h.turned k hlt d hd, Grid.col, Grid.col, hf.columns d (by omega), hf.res_rows]
    · obtain rfl : d = c := by omega
      rw [Grid.col, hf.res_rows, h.res_rows, hf.turned, h.rows k le_rfl, Grid.row]
  moved := fun k hk => by
    rcases Nat.lt_succ_iff_lt_or_eq.mp hk with hlt | rfl
    · rw [← h.moved k hlt, Grid.row, Grid.row, hf.rows k hlt.ne, hf.box_cols]
    · rw [Grid.row, hf.box_cols, h.box_cols, hf.moved, h.rows k le_rfl, Grid.row]
  rows := fun k hk => (hf.rows k (by omega)).trans (h.rows k (by omega))

/-- **The loop over the rows.** -/
theorem rowLoop_eq (hcells : ∀ k < box₀.rows, ∀ l < box₀.cols, Cell (box₀.data k l))
    (hi : i ≤ box₀.rows) (h : Turned i box₀ res box) :
    ∃ res' box', rowLoop box₀.rows box₀.cols i res box = pure (res', box') ∧
      Turned box₀.rows box₀ res' box' := by
  obtain ⟨d, hd⟩ := Nat.exists_eq_add_of_le hi
  induction d generalizing i res box with
  | zero =>
    obtain rfl : box₀.rows = i := hd
    exact ⟨res, box, by rw [rowLoop, if_neg (lt_irrefl _)], h⟩
  | succ d ih =>
    have hrow : ∀ l < box.cols, Cell (box.data i l) := by
      rw [h.rows i le_rfl, h.box_cols]
      exact hcells i (by omega)
    obtain ⟨res', box', hrun, hf⟩ := colLoop_eq (c := d) hrow (by rw [h.box_rows]; omega)
      (Nat.add_zero _) (h.res_rows.trans h.box_cols.symm) (h.res_cols.trans h.box_rows.symm)
      (by rw [h.box_rows]; omega) (.start d i box.cols res box)
    rw [h.box_rows, h.box_cols] at hrun
    rw [h.box_cols] at hf
    rw [rowLoop, if_pos (by omega), hrun, pure_bind, ← Nat.cast_succ]
    exact ih (by omega) (h.step (by omega) hf) (by omega)

/-- What is written does not depend on what is in the turned box at first. -/
theorem rotate_eq (start : Grid Char)
    (hcells : ∀ k < box.rows, ∀ l < box.cols, Cell (box.data k l)) (hm : 0 < box.rows)
    (hrows : start.rows = box.cols) (hcols : start.cols = box.rows) :
    ∃ res' box', rotate start box = pure (res', box') ∧ Turned box.rows box res' box' := by
  rw [rotate, Grid.firstSize_eq hm, pure_bind, ← Nat.cast_zero]
  refine rowLoop_eq hcells (Nat.zero_le _) ?_
  exact {
    res_rows := hrows
    res_cols := hcols
    box_rows := rfl
    box_cols := rfl
    turned := fun k hk => absurd hk (Nat.not_lt_zero k)
    moved := fun k hk => absurd hk (Nat.not_lt_zero k)
    rows := fun _ _ => rfl }

/-- Two boxes turned have the same cells. -/
theorem Turned.data_eq (h : Turned box₀.rows box₀ res box) (h' : Turned box₀.rows box₀ res' box')
    (hi : i < box₀.cols) (hj : j < box₀.rows) : res.data i j = res'.data i j := by
  have hcol : res.col j = res'.col j := by
    rw [h.turned (box₀.rows - 1 - j) (by omega) j (by omega),
      h'.turned (box₀.rows - 1 - j) (by omega) j (by omega)]
  have hget := congrArg (·[i]?) hcol
  simp only [Grid.col, h.res_rows, h'.res_rows, Grid.getElem?_stretch hi, Option.some.injEq,
    Nat.zero_add] at hget
  exact hget

end RotateTheBox

end Candcpp
