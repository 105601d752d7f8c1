import Candcpp.Cpp.Grid
import Candcpp.Order.Backtrack

/-!
# The queens on a board

`solveNQueens` of `51.cpp`, a search that places one queen after the other, row by row, and goes
back when there is no more square in a row. All calls of `dfs` share one board. Only the rows above
the current one say something: there the queens placed so far are marked
(`Candcpp.SolveNQueens.Holds`), and only there does `isVaild` look; the rows from the current one on
hold what earlier branches of the search have left behind.

So `dfs` adds to the result the boards that the search of `Candcpp.extensions` finds
(`Candcpp.SolveNQueens.dfs_eq`), and **the result is every placement of `n` queens that do not
attack each other**, each of them once (`Candcpp.SolveNQueens.solveNQueens_eq`).
-/

namespace Candcpp

open Cpp

namespace SolveNQueens

/-! ### The code -/

/-- A `vector<string>`. -/
abbrev Board := List (List Char)

/-- `for (int i = 0; i < row; ++i)`: whether there is no queen in the column. -/
def columnLoop (map : Grid Char) (row col i : ℤ) : Exec Bool := do
  let +zeta columnLoop : type_of% columnLoop := by apply columnLoop
  if i < row then
    let x ← map.get i col
    if x = 'Q' then
      pure false
    else
      columnLoop map row col (i + 1)
  else
    pure true
partial_fixpoint

/-- `while (i-1 >= 0 && j-1 >= 0)`: whether there is no queen to the upper left. -/
def leftLoop (map : Grid Char) (i j : ℤ) : Exec Bool := do
  let +zeta leftLoop : type_of% leftLoop := by apply leftLoop
  if i - 1 ≥ 0 ∧ j - 1 ≥ 0 then
    let x ← map.get (i - 1) (j - 1)
    if x = 'Q' then
      pure false
    else
      leftLoop map (i - 1) (j - 1)
  else
    pure true
partial_fixpoint

/-- `while (i-1 >= 0 && j+1 < n)`: whether there is no queen to the upper right. -/
def rightLoop (map : Grid Char) (n i j : ℤ) : Exec Bool := do
  let +zeta rightLoop : type_of% rightLoop := by apply rightLoop
  if i - 1 ≥ 0 ∧ j + 1 < n then
    let x ← map.get (i - 1) (j + 1)
    if x = 'Q' then
      pure false
    else
      rightLoop map n (i - 1) (j + 1)
  else
    pure true
partial_fixpoint

/-- `isVaild`. -/
def isVaild (map : Grid Char) (row col n : ℤ) : Exec Bool := do
  if ← columnLoop map row col 0 then
    if ← leftLoop map row col then
      rightLoop map n row col
    else
      pure false
  else
    pure false

/-- `for (int k = 0; k < j; ++k)`, and `for (int k = j+1; k < n; ++k)`. -/
def dotLoop (map : Grid Char) (row k last : ℤ) : Exec (Grid Char) := do
  let +zeta dotLoop : type_of% dotLoop := by apply dotLoop
  if k < last then
    let map ← map.put row k '.'
    dotLoop map row (k + 1) last
  else
    pure map
partial_fixpoint

/-- The rows of the board, as strings. -/
def rows (map : Grid Char) : Board :=
  (List.range map.rows).map fun i => (List.range map.cols).map (map.data i)

mutual

/-- `dfs`, which changes the board and the member `res`. -/
def dfs (map : Grid Char) (res : List Board) (row n : ℤ) : Exec (Grid Char × List Board) := do
  let +zeta squareLoop : type_of% squareLoop := by apply squareLoop
  if row = n then
    pure (map, res ++ [rows map])
  else
    squareLoop map res row n 0
partial_fixpoint

/-- `for (int j = 0; j < n; ++j)` of `dfs`. -/
def squareLoop (map : Grid Char) (res : List Board) (row n j : ℤ) :
    Exec (Grid Char × List Board) := do
  let +zeta dfs : type_of% dfs := by apply dfs
  let +zeta squareLoop : type_of% squareLoop := by apply squareLoop
  if j < n then
    let vaild ← isVaild map row j n
    if vaild then
      let map ← map.put row j 'Q'
      let map ← dotLoop map row 0 j
      let map ← dotLoop map row (j + 1) n
      let p ← dfs map res (row + 1) n
      let map ← p.1.put row j '.'
      squareLoop map p.2 row n (j + 1)
    else
      squareLoop map res row n (j + 1)
  else
    pure (map, res)
partial_fixpoint

end

/-- `solveNQueens`, of a fresh `Solution`. -/
def solveNQueens (n : ℕ) : Exec (List Board) := do
  let p ← dfs (Grid.fill n n (Char.ofNat 0)) [] 0 n
  pure p.2

/-! ### The right answer -/

/-- Two queens attack each other: they are in one row, in one column, or on one diagonal. -/
def Attacks (p q : ℕ × ℕ) : Prop :=
  p.1 = q.1 ∨ p.2 = q.2 ∨ p.1 + p.2 = q.1 + q.2 ∨ p.1 + q.2 = q.1 + p.2

instance (p q : ℕ × ℕ) : Decidable (Attacks p q) := inferInstanceAs (Decidable (_ ∨ _ ∨ _ ∨ _))

/-- The squares with a queen. -/
def queens (b : Board) : Set (ℕ × ℕ) := {p | ∃ r, b[p.1]? = some r ∧ r[p.2]? = some 'Q'}

/-- **A placement**: `n` strings of `n` characters, each of them a queen or a dot, with `n` queens,
none of which attacks another one. -/
structure Placement (n : ℕ) (b : Board) : Prop where
  length_eq : b.length = n
  row_length : ∀ r ∈ b, r.length = n
  mem_row : ∀ r ∈ b, ∀ x ∈ r, x = 'Q' ∨ x = '.'
  ncard : (queens b).ncard = n
  peaceful : (queens b).Pairwise fun p q => ¬ Attacks p q

variable {map : Grid Char} {cs : List ℕ} {n i j k m c row : ℕ} {b : Bool}

/-! ### What the board says -/

/-- The square `j` of the next row is not attacked by the queens placed so far, of which `cs` are
the columns. -/
def Free (cs : List ℕ) (j : ℕ) : Prop :=
  ∀ i, ∀ h : i < cs.length, ¬ Attacks (i, cs[i]) (cs.length, j)

instance (cs : List ℕ) (j : ℕ) : Decidable (Free cs j) := Nat.decidableBallLT _ _

theorem free_iff : Free cs j ↔ ∀ i c, cs[i]? = some c → ¬ Attacks (i, c) (cs.length, j) := by
  constructor
  · intro h i c hc
    obtain ⟨hi, rfl⟩ := List.getElem?_eq_some_iff.mp hc
    exact h i hi
  · exact fun h i hi => h i _ (List.getElem?_eq_getElem hi)

/-- The square `j` of a row with a queen in the column `c`. -/
def square (c j : ℕ) : Char := if j = c then 'Q' else '.'

theorem square_eq_iff : square c j = 'Q' ↔ j = c := by
  rw [square]
  split_ifs with h
  · exact iff_of_true rfl h
  · exact iff_of_false (by decide) h

/-- **The first rows of the board** hold the queens placed so far. The others hold anything. -/
structure Holds (n : ℕ) (cs : List ℕ) (map : Grid Char) : Prop where
  rows : map.rows = n
  cols : map.cols = n
  lt : ∀ i c : ℕ, cs[i]? = some c → c < n
  data : ∀ i c : ℕ, cs[i]? = some c → ∀ j < n, map.data i j = square c j

/-- A square of these rows is read. -/
theorem Holds.get_eq (h : Holds n cs map) (hlen : cs.length ≤ n) (hc : cs[i]? = some c)
    (hj : j < n) : map.get i j = pure (square c j) := by
  have hi := (List.getElem?_eq_some_iff.mp hc).1
  rw [Grid.get_eq (by rw [h.rows]; omega) (by rw [h.cols]; exact hj), h.data i c hc j hj]

/-- **The column** is looked at from the row `i` on. -/
theorem columnLoop_eq (h : Holds n cs map) (hlen : cs.length ≤ n) (hj : j < n) : ∃ b,
    columnLoop map cs.length j i = pure b ∧
      (b = true ↔ ∀ i' c, i ≤ i' → cs[i']? = some c → c ≠ j) := by
  induction hd : cs.length - i generalizing i with
  | zero =>
    rw [columnLoop, if_neg (by omega)]
    refine ⟨true, rfl, iff_of_true rfl fun i' c hi hc => ?_⟩
    have := (List.getElem?_eq_some_iff.mp hc).1
    omega
  | succ d ih =>
    obtain ⟨b, hrun, hb⟩ := ih (i := i + 1) (by omega)
    have hc := List.getElem?_eq_getElem (show i < cs.length by omega)
    have hnext : (i : ℤ) + 1 = (i + 1 : ℕ) := by push_cast; rfl
    rw [columnLoop, if_pos (by omega), h.get_eq hlen hc hj, pure_bind, hnext, hrun]
    by_cases hq : j = cs[i]
    · rw [if_pos (square_eq_iff.mpr hq)]
      exact ⟨false, rfl, iff_of_false Bool.false_ne_true fun hall => hall i _ le_rfl hc hq.symm⟩
    · rw [if_neg (mt square_eq_iff.mp hq)]
      refine ⟨b, rfl, hb.trans ⟨fun hall i' c hi hc' => ?_, fun hall i' c hi => ?_⟩⟩
      · rcases hi.eq_or_lt with rfl | hlt
        · rintro rfl
          exact hq (Option.some.inj (hc'.symm.trans hc))
        · exact hall i' c hlt hc'
      · exact hall i' c (by omega)

/-- **The diagonal to the upper left** is looked at from the square above `i` and `j` on. -/
theorem leftLoop_eq (h : Holds n cs map) (hlen : cs.length ≤ n) (hi : i ≤ cs.length) (hj : j < n) :
    ∃ b, leftLoop map i j = pure b ∧
      (b = true ↔ ∀ i' c, i' < i → cs[i']? = some c → i' + j ≠ i + c) := by
  induction i generalizing j with
  | zero =>
    rw [leftLoop, if_neg (by omega)]
    exact ⟨true, rfl, iff_of_true rfl fun i' c hi' => absurd hi' (Nat.not_lt_zero _)⟩
  | succ i ih =>
    rw [leftLoop]
    rcases j with _ | j
    · rw [if_neg (by omega)]
      exact ⟨true, rfl, iff_of_true rfl fun i' c hi' _ => by omega⟩
    · obtain ⟨b, hrun, hb⟩ := ih (by omega) (j := j) (by omega)
      have hc := List.getElem?_eq_getElem (show i < cs.length by omega)
      have hi' : ((i + 1 : ℕ) : ℤ) - 1 = i := by omega
      have hj' : ((j + 1 : ℕ) : ℤ) - 1 = j := by omega
      rw [if_pos (by omega), hi', hj', h.get_eq hlen hc (by omega), pure_bind, hrun]
      by_cases hq : j = cs[i]
      · rw [if_pos (square_eq_iff.mpr hq)]
        refine ⟨false, rfl, iff_of_false Bool.false_ne_true fun hall => ?_⟩
        exact hall i _ (Nat.lt_succ_self i) hc (by omega)
      · rw [if_neg (mt square_eq_iff.mp hq)]
        refine ⟨b, rfl, hb.trans ⟨fun hall i' c hi hc' => ?_, fun hall i' c hi hc' => ?_⟩⟩
        · rcases Nat.lt_succ_iff_lt_or_eq.mp hi with hlt | rfl
          · have := hall i' c hlt hc'
            omega
          · have := Option.some.inj (hc'.symm.trans hc)
            omega
        · have := hall i' c (by omega) hc'
          omega

/-- **The diagonal to the upper right** is looked at from the square above `i` and `j` on. -/
theorem rightLoop_eq (h : Holds n cs map) (hlen : cs.length ≤ n) (hi : i ≤ cs.length)
    (hj : j < n) : ∃ b, rightLoop map n i j = pure b ∧
      (b = true ↔ ∀ i' c, i' < i → cs[i']? = some c → i' + c ≠ i + j) := by
  induction i generalizing j with
  | zero =>
    rw [rightLoop, if_neg (by omega)]
    exact ⟨true, rfl, iff_of_true rfl fun i' c hi' => absurd hi' (Nat.not_lt_zero _)⟩
  | succ i ih =>
    rw [rightLoop]
    by_cases hlast : j + 1 < n
    · obtain ⟨b, hrun, hb⟩ := ih (by omega) hlast
      have hc := List.getElem?_eq_getElem (show i < cs.length by omega)
      have hi' : ((i + 1 : ℕ) : ℤ) - 1 = i := by omega
      have hj' : (j : ℤ) + 1 = (j + 1 : ℕ) := by push_cast; rfl
      rw [if_pos (by omega), hi', hj', h.get_eq hlen hc hlast, pure_bind, hrun]
      by_cases hq : j + 1 = cs[i]
      · rw [if_pos (square_eq_iff.mpr hq)]
        refine ⟨false, rfl, iff_of_false Bool.false_ne_true fun hall => ?_⟩
        exact hall i _ (Nat.lt_succ_self i) hc (by omega)
      · rw [if_neg (mt square_eq_iff.mp hq)]
        refine ⟨b, rfl, hb.trans ⟨fun hall i' c hi hc' => ?_, fun hall i' c hi hc' => ?_⟩⟩
        · rcases Nat.lt_succ_iff_lt_or_eq.mp hi with hlt | rfl
          · have := hall i' c hlt hc'
            omega
          · have := Option.some.inj (hc'.symm.trans hc)
            omega
        · have := hall i' c (by omega) hc'
          omega
    · rw [if_neg (by omega)]
      refine ⟨true, rfl, iff_of_true rfl fun i' c hi' hc => ?_⟩
      have := h.lt i' c hc
      omega

/-- **`isVaild` says whether the square is free.** -/
theorem isVaild_eq (h : Holds n cs map) (hlen : cs.length ≤ n) (hj : j < n) :
    isVaild map cs.length j n = pure (decide (Free cs j)) := by
  obtain ⟨b, hcolumn, hb⟩ := columnLoop_eq (i := 0) h hlen hj
  obtain ⟨b', hleft, hb'⟩ := leftLoop_eq h hlen le_rfl hj
  obtain ⟨b'', hright, hb''⟩ := rightLoop_eq h hlen le_rfl hj
  have hfree : decide (Free cs j) = (b && b' && b'') := by
    rw [Bool.eq_iff_iff, decide_eq_true_iff, Bool.and_eq_true, Bool.and_eq_true, hb, hb', hb'',
      free_iff]
    constructor
    · intro hf
      refine ⟨⟨fun i c _ hc heq => ?_, fun i c _ hc heq => ?_⟩, fun i c _ hc heq => ?_⟩
      · exact hf i c hc (.inr (.inl heq))
      · exact hf i c hc (.inr (.inr (.inr heq)))
      · exact hf i c hc (.inr (.inr (.inl heq)))
    · rintro ⟨⟨h₁, h₂⟩, h₃⟩ i c hc (heq | heq | heq | heq)
      · have := (List.getElem?_eq_some_iff.mp hc).1
        exact this.ne heq
      · exact h₁ i c (Nat.zero_le i) hc heq
      · exact h₃ i c (List.getElem?_eq_some_iff.mp hc).1 hc heq
      · exact h₂ i c (List.getElem?_eq_some_iff.mp hc).1 hc heq
  rw [Nat.cast_zero] at hcolumn
  rw [isVaild, hcolumn, pure_bind, hleft, hright, hfree]
  cases b with
  | false => rfl
  | true =>
    cases b' with
    | false => rfl
    | true => rfl

/-! ### Marking a square -/

/-- **A loop of dots** changes a part of one row. -/
theorem dotLoop_eq {last : ℕ} (hrow : row < map.rows) (hlast : last ≤ map.cols) : ∃ map',
    dotLoop map row k last = pure map' ∧ map'.rows = map.rows ∧ map'.cols = map.cols ∧
      ∀ i j, map'.data i j = if i = row ∧ k ≤ j ∧ j < last then '.' else map.data i j := by
  induction hd : last - k generalizing map k with
  | zero =>
    rw [dotLoop, if_neg (by omega)]
    exact ⟨map, rfl, rfl, rfl, fun i j => (if_neg (by omega)).symm⟩
  | succ d ih =>
    have hnext : (k : ℤ) + 1 = (k + 1 : ℕ) := by push_cast; rfl
    have hrow' : row < (map.set row k '.').rows := hrow
    obtain ⟨map', hrun, hrows, hcols, hdata⟩ := ih (k := k + 1) hrow' hlast (by omega)
    rw [dotLoop, if_pos (by omega), Grid.put_eq hrow (by omega), pure_bind, hnext, hrun]
    refine ⟨map', rfl, hrows, hcols, fun i j => (hdata i j).trans ?_⟩
    rw [Grid.data_set]
    split_ifs
    all_goals first | rfl | omega

theorem getElem?_concat (h : (cs ++ [j])[i]? = some c) :
    cs[i]? = some c ∨ i = cs.length ∧ c = j := by
  rcases Nat.lt_or_ge i cs.length with hlt | hge
  · rw [List.getElem?_append_left hlt] at h
    exact .inl h
  · rw [List.getElem?_append_right hge] at h
    obtain ⟨hi, hc⟩ := List.getElem?_eq_some_iff.mp h
    rw [List.length_singleton] at hi
    exact .inr ⟨by omega, by simpa using hc.symm⟩

/-- **A queen is placed** in the next row. -/
theorem mark_eq (h : Holds n cs map) (hlen : cs.length < n) (hj : j < n) : ∃ map₁ map₂,
    dotLoop (map.set cs.length j 'Q') cs.length 0 j = pure map₁ ∧
      dotLoop map₁ cs.length (j + 1 : ℕ) n = pure map₂ ∧ Holds n (cs ++ [j]) map₂ := by
  have hrow : cs.length < (map.set cs.length j 'Q').rows := by
    rw [Grid.rows_set, h.rows]
    exact hlen
  have hcol : j ≤ (map.set cs.length j 'Q').cols := by
    rw [Grid.cols_set, h.cols]
    exact hj.le
  obtain ⟨map₁, hrun₁, hrows₁, hcols₁, hdata₁⟩ := dotLoop_eq (k := 0) hrow hcol
  have hcol₁ : n ≤ map₁.cols := by
    rw [hcols₁, Grid.cols_set, h.cols]
  obtain ⟨map₂, hrun₂, hrows₂, hcols₂, hdata₂⟩ :=
    dotLoop_eq (k := j + 1) (hrows₁ ▸ hrow) hcol₁
  refine ⟨map₁, map₂, hrun₁, hrun₂, (hrows₂.trans hrows₁).trans h.rows,
    (hcols₂.trans hcols₁).trans h.cols, fun i c hc => ?_, fun i c hc x hx => ?_⟩
  · rcases getElem?_concat hc with hc | ⟨-, rfl⟩
    · exact h.lt i c hc
    · exact hj
  · rw [hdata₂, hdata₁, Grid.data_set]
    rcases getElem?_concat hc with hc | ⟨rfl, rfl⟩
    · have hi := (List.getElem?_eq_some_iff.mp hc).1
      rw [if_neg (by omega), if_neg (by omega), if_neg (by omega), h.data i c hc x hx]
    · rw [square]
      split_ifs
      all_goals first | rfl | omega

/-- The rows above are as before when the next row is written. -/
theorem Holds.set (h : Holds n (cs ++ [j]) map) (x : Char) :
    Holds n cs (map.set cs.length j x) := by
  have hmem : ∀ i c : ℕ, cs[i]? = some c → (cs ++ [j])[i]? = some c := by
    intro i c hc
    rw [List.getElem?_append_left (List.getElem?_eq_some_iff.mp hc).1, hc]
  refine ⟨h.rows, h.cols, fun i c hc => h.lt i c (hmem i c hc), fun i c hc y hy => ?_⟩
  have hi := (List.getElem?_eq_some_iff.mp hc).1
  rw [Grid.data_set_of_ne _ _ (.inl (by omega)), h.data i c (hmem i c hc) y hy]

/-! ### The search -/

/-- The board with queens in the columns `cs`, from the first row on. -/
def board (n : ℕ) (cs : List ℕ) : Board := cs.map fun c => (List.range n).map (square c)

/-- **A full board** is copied. -/
theorem Holds.rows_eq (h : Holds n cs map) (hlen : cs.length = n) :
    SolveNQueens.rows map = board n cs := by
  rw [SolveNQueens.rows, board, h.rows, h.cols]
  refine List.ext_getElem (by simp [hlen]) fun i hi hi' => ?_
  rw [List.length_map, List.length_range] at hi
  rw [List.getElem_map, List.getElem_map, List.getElem_range]
  refine List.map_congr_left fun j hj => ?_
  exact h.data i _ (List.getElem?_eq_getElem _) j (List.mem_range.mp hj)

/-- What is found in the squares of a row from `j` on. -/
abbrev found (n k : ℕ) (cs : List ℕ) (j : ℕ) : List (List ℕ) :=
  (List.range' j (n - j)).flatMap fun x =>
    if Free cs x then extensions (List.range n) Free k (cs ++ [x]) else []

/-- **The loop over the squares of a row** finds what the recursion finds for each of them. -/
theorem squareLoop_eq (res : List Board) (hlen : cs.length < n)
    (hdfs : ∀ cs' map res, cs'.length = cs.length + 1 → Holds n cs' map → ∃ map',
      dfs map res cs'.length n =
        pure (map', res ++ (extensions (List.range n) Free k cs').map (board n)) ∧
        Holds n cs' map')
    (h : Holds n cs map) (hj : j ≤ n) : ∃ map', squareLoop map res cs.length n j =
      pure (map', res ++ (found n k cs j).map (board n)) ∧ Holds n cs map' := by
  induction hd : n - j generalizing map res j with
  | zero =>
    rw [squareLoop, if_neg (by omega), found, hd]
    exact ⟨map, by simp, h⟩
  | succ d ih =>
    have hjn : j < n := by omega
    have hnext : (j : ℤ) + 1 = (j + 1 : ℕ) := by push_cast; rfl
    have hsplit : found n k cs j =
        (if Free cs j then extensions (List.range n) Free k (cs ++ [j]) else []) ++
          found n k cs (j + 1) := by
      rw [found, hd, List.range'_succ, List.flatMap_cons, found, show n - (j + 1) = d by omega]
    rw [squareLoop, if_pos (by omega), isVaild_eq h hlen.le hjn, pure_bind, hnext, hsplit]
    by_cases hfree : Free cs j
    · obtain ⟨map₁, map₂, hrun₁, hrun₂, h₂⟩ := mark_eq h hlen hjn
      obtain ⟨map₃, hrun₃, h₃⟩ := hdfs (cs ++ [j]) map₂ res (by simp) h₂
      obtain ⟨map₄, hrun₄, h₄⟩ := ih
        (res ++ (extensions (List.range n) Free k (cs ++ [j])).map (board n)) (h₃.set '.') hjn
        (by omega)
      have hrow : ((cs ++ [j]).length : ℤ) = (cs.length : ℤ) + 1 := by simp
      rw [hrow] at hrun₃
      rw [if_pos (decide_eq_true hfree), if_pos hfree, Grid.put_eq (h.rows ▸ hlen) (h.cols ▸ hjn),
        pure_bind, hrun₁, pure_bind, hrun₂, pure_bind, hrun₃, pure_bind,
        Grid.put_eq (h₃.rows ▸ hlen) (h₃.cols ▸ hjn), pure_bind, hrun₄]
      exact ⟨map₄, by rw [List.map_append, List.append_assoc], h₄⟩
    · obtain ⟨map', hrun, h'⟩ := ih res h hjn (by omega)
      rw [if_neg (by simpa using hfree), if_neg hfree, hrun, List.nil_append]
      exact ⟨map', rfl, h'⟩

/-- **`dfs` finds** every way of placing a queen in each of the rows that are left. -/
theorem dfs_eq (res : List Board) (hk : cs.length + k = n) (h : Holds n cs map) : ∃ map',
    dfs map res cs.length n =
      pure (map', res ++ (extensions (List.range n) Free k cs).map (board n)) ∧
      Holds n cs map' := by
  induction k generalizing cs map res with
  | zero =>
    rw [dfs, if_pos (by omega), h.rows_eq (by omega)]
    exact ⟨map, rfl, h⟩
  | succ k ih =>
    obtain ⟨map', hrun, h'⟩ := squareLoop_eq (j := 0) res (by omega)
      (fun cs' map res hcs' => ih res (by omega)) h (Nat.zero_le n)
    rw [dfs, if_neg (by omega)]
    refine ⟨map', hrun.trans ?_, h'⟩
    rw [found, extensions, List.range_eq_range', Nat.sub_zero]

/-! ### The placements -/

/-- The columns of a placement, from the first row on. -/
structure Columns (n : ℕ) (cs : List ℕ) : Prop where
  length_eq : cs.length = n
  lt : ∀ i c : ℕ, cs[i]? = some c → c < n
  peaceful : ∀ i j c d : ℕ, i < j → cs[i]? = some c → cs[j]? = some d → ¬ Attacks (i, c) (j, d)

/-- **The search finds the columns** of the placements. -/
theorem mem_extensions_iff : cs ∈ extensions (List.range n) Free n [] ↔ Columns n cs := by
  rw [mem_extensions]
  constructor
  · rintro ⟨m, hcs, hlen, h⟩
    obtain rfl : cs = m := hcs
    have hall : ∀ i c : ℕ, cs[i]? = some c → c < n ∧ Free (cs.take i) c := by
      intro i c hc
      obtain ⟨hi, rfl⟩ := List.getElem?_eq_some_iff.mp hc
      have hsplit : cs = cs.take i ++ cs[i] :: cs.drop (i + 1) := by
        rw [← List.drop_eq_getElem_cons, List.take_append_drop]
      obtain ⟨hmem, hfree⟩ := allowed_iff.mp h _ _ _ hsplit
      exact ⟨List.mem_range.mp hmem, hfree⟩
    refine ⟨hlen, fun i c hc => (hall i c hc).1, fun i j c d hij hc hd => ?_⟩
    have hj := (List.getElem?_eq_some_iff.mp hd).1
    have hfree := free_iff.mp (hall j d hd).2 i c (by rw [List.getElem?_take_of_lt hij, hc])
    rwa [List.length_take, min_eq_left hj.le] at hfree
  · intro h
    refine ⟨cs, rfl, h.length_eq, allowed_iff.mpr fun pre x post hcs => ?_⟩
    have hx : cs[pre.length]? = some x := by
      rw [hcs, List.getElem?_append_right le_rfl, Nat.sub_self, List.getElem?_cons_zero]
    refine ⟨List.mem_range.mpr (h.lt _ _ hx), free_iff.mpr fun i c hc => ?_⟩
    rw [List.nil_append] at hc
    have hi := (List.getElem?_eq_some_iff.mp hc).1
    refine h.peaceful i pre.length c x hi ?_ hx
    rw [hcs, List.getElem?_append_left hi, hc]

/-- **The queens of a board** are in the columns. -/
theorem mem_queens_board (hlt : ∀ i c : ℕ, cs[i]? = some c → c < n) :
    (i, j) ∈ queens (board n cs) ↔ cs[i]? = some j := by
  have hrow : ∀ c j : ℕ, ((List.range n).map (square c))[j]? = some 'Q' ↔ j < n ∧ j = c := by
    intro c j
    rw [List.getElem?_map, Option.map_eq_some_iff]
    constructor
    · rintro ⟨x, hx, hq⟩
      obtain ⟨hj, rfl⟩ := List.getElem?_eq_some_iff.mp hx
      rw [List.getElem_range] at hq
      exact ⟨by simpa using hj, square_eq_iff.mp hq⟩
    · rintro ⟨hj, rfl⟩
      exact ⟨j, List.getElem?_range hj, square_eq_iff.mpr rfl⟩
  constructor
  · rintro ⟨r, hr, hq⟩
    rw [board, List.getElem?_map, Option.map_eq_some_iff] at hr
    obtain ⟨c, hc, rfl⟩ := hr
    obtain ⟨-, rfl⟩ := (hrow c _).mp hq
    exact hc
  · intro hc
    refine ⟨_, ?_, (hrow j j).mpr ⟨hlt i j hc, rfl⟩⟩
    rw [board, List.getElem?_map, hc, Option.map_some]

/-- The columns make a placement. -/
theorem Columns.placement (h : Columns n cs) : Placement n (board n cs) := by
  have hrow : ∀ r ∈ board n cs, ∃ c, r = (List.range n).map (square c) := by
    intro r hr
    obtain ⟨c, -, rfl⟩ := List.mem_map.mp hr
    exact ⟨c, rfl⟩
  refine ⟨?_, fun r hr => ?_, fun r hr x hx => ?_, ?_, ?_⟩
  · rw [board, List.length_map, h.length_eq]
  · obtain ⟨c, rfl⟩ := hrow r hr
    rw [List.length_map, List.length_range]
  · obtain ⟨c, rfl⟩ := hrow r hr
    obtain ⟨j, -, rfl⟩ := List.mem_map.mp hx
    rw [square]
    split_ifs
    · exact .inl rfl
    · exact .inr rfl
  · have himage : queens (board n cs) = (fun i => (i, cs.getD i 0)) '' Set.Iio n := by
      ext ⟨i, c⟩
      rw [mem_queens_board h.lt]
      constructor
      · intro hp
        obtain ⟨hi, rfl⟩ := List.getElem?_eq_some_iff.mp hp
        exact ⟨i, h.length_eq ▸ hi, Prod.ext rfl (List.getD_eq_getElem _ _ hi)⟩
      · rintro ⟨j, hj, hp⟩
        obtain ⟨rfl, rfl⟩ := Prod.ext_iff.mp hp
        have hj' : j < cs.length := h.length_eq ▸ hj
        rw [List.getElem?_eq_getElem hj']
        exact congrArg some (List.getD_eq_getElem _ _ hj').symm
    rw [himage, Set.ncard_image_of_injective _ fun i j hij => (Prod.ext_iff.mp hij).1]
    simp [Set.ncard_eq_toFinset_card']
  · rintro ⟨i, c⟩ hp ⟨j, d⟩ hq hne hatt
    rw [mem_queens_board h.lt] at hp hq
    rcases lt_trichotomy i j with hij | rfl | hij
    · exact h.peaceful i j c d hij hp hq hatt
    · exact hne (by rw [Option.some.inj (hp.symm.trans hq)])
    · refine h.peaceful j i d c hij hq hp ?_
      obtain heq | heq | heq | heq := hatt
      · exact .inl heq.symm
      · exact .inr (.inl heq.symm)
      · exact .inr (.inr (.inl heq.symm))
      · exact .inr (.inr (.inr heq.symm))

/-- **In a placement there is a queen in each row.** -/
theorem Placement.exists_queen {b : Board} (h : Placement n b) (hi : i < n) :
    ∃ c, (i, c) ∈ queens b := by
  have hinj : Set.InjOn Prod.fst (queens b) := by
    intro p hp q hq hpq
    by_contra hne
    exact h.peaceful hp hq hne (.inl hpq)
  have hsub : Prod.fst '' queens b ⊆ Set.Iio n := by
    rintro _ ⟨p, ⟨r, hr, -⟩, rfl⟩
    have := (List.getElem?_eq_some_iff.mp hr).1
    rw [h.length_eq] at this
    exact this
  -- there are as many queens as rows, and no two of them in one row
  have heq : Prod.fst '' queens b = Set.Iio n := by
    refine Set.eq_of_subset_of_ncard_le hsub ?_ (Set.finite_Iio n)
    rw [hinj.ncard_image, h.ncard]
    simp [Set.ncard_eq_toFinset_card']
  obtain ⟨p, hp, rfl⟩ : i ∈ Prod.fst '' queens b := heq ▸ hi
  exact ⟨p.2, hp⟩

/-- **A placement is the board of its columns.** -/
theorem Placement.exists_columns {b : Board} (h : Placement n b) :
    ∃ cs, Columns n cs ∧ board n cs = b := by
  have hqueen : ∀ i, ∃ c, i < n → (i, c) ∈ queens b := by
    intro i
    by_cases hi : i < n
    · obtain ⟨c, hc⟩ := h.exists_queen hi
      exact ⟨c, fun _ => hc⟩
    · exact ⟨0, fun hi' => absurd hi' hi⟩
  choose f hf using hqueen
  have hget : ∀ i c : ℕ, ((List.range n).map f)[i]? = some c → i < n ∧ f i = c := by
    intro i c hc
    rw [List.getElem?_map, Option.map_eq_some_iff] at hc
    obtain ⟨k, hk, rfl⟩ := hc
    obtain ⟨hi, rfl⟩ := List.getElem?_eq_some_iff.mp hk
    rw [List.length_range] at hi
    exact ⟨hi, by rw [List.getElem_range]⟩
  refine ⟨(List.range n).map f, ⟨by simp, fun i c hc => ?_, fun i j c d hij hc hd => ?_⟩, ?_⟩
  · obtain ⟨hi, rfl⟩ := hget i c hc
    obtain ⟨r, hr, hq⟩ := hf i hi
    have := (List.getElem?_eq_some_iff.mp hq).1
    rwa [h.row_length r (List.mem_of_getElem? hr)] at this
  · obtain ⟨hi, rfl⟩ := hget i c hc
    obtain ⟨hj, rfl⟩ := hget j d hd
    exact h.peaceful (hf i hi) (hf j hj) fun heq => hij.ne (Prod.ext_iff.mp heq).1
  · refine List.ext_getElem (by simp [board, h.length_eq]) fun i hi hi' => ?_
    rw [h.length_eq] at hi'
    have hr : b[i] ∈ b := List.getElem_mem _
    simp only [board, List.getElem_map, List.getElem_range]
    refine List.ext_getElem (by simp [h.row_length _ hr]) fun j hj hj' => ?_
    rw [List.getElem_map, List.getElem_range, square]
    obtain ⟨r, hbi, hq⟩ := hf i hi'
    obtain rfl : b[i] = r := (List.getElem?_eq_some_iff.mp hbi).2
    split_ifs with hjc
    · subst hjc
      exact (List.getElem?_eq_some_iff.mp hq).2.symm
    · refine ((h.mem_row _ hr _ (List.getElem_mem hj')).resolve_left fun hq' => ?_).symm
      -- there would be two queens in one row
      have hmem : (i, j) ∈ queens b :=
        ⟨b[i], hbi, List.getElem?_eq_some_iff.mpr ⟨hj', hq'⟩⟩
      exact h.peaceful hmem (hf i hi') (fun heq => hjc (Prod.ext_iff.mp heq).2) (.inl rfl)

/-- **`solveNQueens` returns all placements** of `n` queens that do not attack each other, each of
them once, and nothing else. -/
theorem solveNQueens_eq (n : ℕ) : ∃ res, solveNQueens n = pure res ∧ res.Nodup ∧
    ∀ b, b ∈ res ↔ Placement n b := by
  have hstart : Holds n [] (Grid.fill n n (Char.ofNat 0)) :=
    ⟨rfl, rfl, fun i c hc => absurd hc (by simp), fun i c hc => absurd hc (by simp)⟩
  obtain ⟨map, hrun, -⟩ := dfs_eq [] (Nat.zero_add n) hstart
  have hrun' : dfs (Grid.fill n n (Char.ofNat 0)) [] 0 n =
      pure (map, (extensions (List.range n) Free n []).map (board n)) := hrun
  refine ⟨_, by rw [solveNQueens, hrun', pure_bind], ?_, fun b => ?_⟩
  · refine (nodup_extensions List.nodup_range).map_on fun cs hcs cs' hcs' heq => ?_
    rw [mem_extensions_iff] at hcs hcs'
    refine List.ext_getElem? fun i => Option.ext fun c => ?_
    rw [← mem_queens_board hcs.lt, heq, mem_queens_board hcs'.lt]
  · rw [List.mem_map]
    constructor
    · rintro ⟨cs, hcs, rfl⟩
      exact (mem_extensions_iff.mp hcs).placement
    · intro h
      obtain ⟨cs, hcs, rfl⟩ := h.exists_columns
      exact ⟨cs, mem_extensions_iff.mpr hcs, rfl⟩

end SolveNQueens

end Candcpp
