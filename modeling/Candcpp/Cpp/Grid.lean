import Candcpp.Cpp.Exec

/-!
# Arrays of two dimensions

A `T a[m][n]`, or a `vector` of `m` vectors of `n` elements each: a `Candcpp.Cpp.Grid`. Only the
elements within the bounds of both dimensions may be read or written. What it holds elsewhere, and
before it is first written, is as it happens to be.
-/

namespace Candcpp

namespace Cpp

/-- An array of two dimensions: its elements, and how many rows and columns there are. -/
structure Grid (α : Type) where
  data : ℕ → ℕ → α
  rows : ℕ
  cols : ℕ

namespace Grid

variable {α : Type}

/-- Every element is `x`. -/
def fill (m n : ℕ) (x : α) : Grid α where
  data := fun _ _ => x
  rows := m
  cols := n

/-- `g[i][j]` is an element. -/
def Inside (g : Grid α) (i j : ℤ) : Prop := (0 ≤ i ∧ i < g.rows) ∧ 0 ≤ j ∧ j < g.cols

instance (g : Grid α) (i j : ℤ) : Decidable (g.Inside i j) := inferInstanceAs (Decidable (_ ∧ _))

/-- The elements after `g[i][j]` has become `x`. -/
def set (g : Grid α) (i j : ℕ) (x : α) : Grid α where
  data := fun k l => if k = i ∧ l = j then x else g.data k l
  rows := g.rows
  cols := g.cols

/-- `g[i][j]`, read. -/
def get (g : Grid α) (i j : ℤ) : Exec α :=
  if g.Inside i j then pure (g.data i.toNat j.toNat) else throw .outOfRange

/-- `g[i][j] = x`. -/
def put (g : Grid α) (i j : ℤ) (x : α) : Exec (Grid α) :=
  if g.Inside i j then pure (g.set i.toNat j.toNat x) else throw .outOfRange

/-- `g[0].size()`: how many elements the first row has, if there is one. -/
def firstSize (g : Grid α) : Exec ℤ := if 0 < g.rows then pure g.cols else throw .outOfRange

variable {g : Grid α} {i j k l : ℕ}

theorem firstSize_eq (h : 0 < g.rows) : g.firstSize = pure (g.cols : ℤ) := if_pos h

theorem get_eq (hi : i < g.rows) (hj : j < g.cols) : g.get i j = pure (g.data i j) := by
  rw [get, if_pos (by rw [Inside]; omega), Int.toNat_natCast, Int.toNat_natCast]

theorem put_eq (hi : i < g.rows) (hj : j < g.cols) (x : α) : g.put i j x = pure (g.set i j x) := by
  rw [put, if_pos (by rw [Inside]; omega), Int.toNat_natCast, Int.toNat_natCast]

@[simp] theorem rows_set (g : Grid α) (i j : ℕ) (x : α) : (g.set i j x).rows = g.rows := rfl

@[simp] theorem cols_set (g : Grid α) (i j : ℕ) (x : α) : (g.set i j x).cols = g.cols := rfl

@[simp] theorem rows_fill (m n : ℕ) (x : α) : (fill m n x).rows = m := rfl

@[simp] theorem cols_fill (m n : ℕ) (x : α) : (fill m n x).cols = n := rfl

theorem data_set (g : Grid α) (i j : ℕ) (x : α) (k l : ℕ) :
    (g.set i j x).data k l = if k = i ∧ l = j then x else g.data k l := rfl

/-- The other elements are as before. -/
theorem data_set_of_ne (g : Grid α) (x : α) (h : k ≠ i ∨ l ≠ j) :
    (g.set i j x).data k l = g.data k l := if_neg (by omega)

/-- Nothing changes when an element becomes what it is. -/
theorem set_self (g : Grid α) (i j : ℕ) : g.set i j (g.data i j) = g := by
  rw [set]
  congr 1
  funext k l
  split_ifs with h
  · rw [h.1, h.2]
  · rfl

/-- Of two writes to one element the later one stays. -/
theorem set_set (g : Grid α) (i j : ℕ) (x y : α) : (g.set i j x).set i j y = g.set i j y := by
  rw [set, set]
  congr 1
  funext k l
  split_ifs with h
  · rfl
  · exact if_neg h

/-! ### Rows and columns -/

/-- The elements of a sequence from the one at `j` on, `n` of them. -/
def stretch (f : ℕ → α) (j n : ℕ) : List α := (List.range' j n).map f

theorem stretch_succ (f : ℕ → α) (j n : ℕ) : stretch f j (n + 1) = f j :: stretch f (j + 1) n := by
  rw [stretch, List.range'_succ, List.map_cons, stretch]

theorem getElem?_stretch {n : ℕ} (h : i < n) (f : ℕ → α) (j : ℕ) :
    (stretch f j n)[i]? = some (f (j + i)) := by
  rw [stretch, List.getElem?_map, List.getElem?_range' h, one_mul, Option.map_some]

theorem getElem?_stretch_eq_none {n : ℕ} (h : n ≤ i) (f : ℕ → α) (j : ℕ) :
    (stretch f j n)[i]? = none :=
  List.getElem?_eq_none (by rwa [stretch, List.length_map, List.length_range'])

theorem stretch_congr {f f' : ℕ → α} {n : ℕ} (h : ∀ k, j ≤ k → k < j + n → f k = f' k) :
    stretch f j n = stretch f' j n :=
  List.map_congr_left fun k hk => h k (List.mem_range'_1.mp hk).1 (List.mem_range'_1.mp hk).2

theorem stretch_update (f : ℕ → α) (j n k : ℕ) (x : α) :
    stretch (Function.update f (j + k) x) j n = (stretch f j n).set k x := by
  refine List.ext_getElem? fun i => ?_
  rcases Nat.lt_or_ge i n with hi | hi
  · rw [getElem?_stretch hi, List.getElem?_set, getElem?_stretch hi]
    rcases eq_or_ne k i with rfl | hne
    · rw [if_pos rfl, if_pos (by rwa [stretch, List.length_map, List.length_range']),
        Function.update_self]
    · rw [if_neg hne, Function.update_of_ne (by omega)]
  · rw [getElem?_stretch_eq_none hi, List.getElem?_eq_none]
    rwa [List.length_set, stretch, List.length_map, List.length_range']

/-- A row. -/
def row (g : Grid α) (i : ℕ) : List α := stretch (g.data i) 0 g.cols

/-- The elements of a column, as a sequence. -/
def down (g : Grid α) (j : ℕ) (i : ℕ) : α := g.data i j

/-- A column. -/
def col (g : Grid α) (j : ℕ) : List α := stretch (g.down j) 0 g.rows

/-- A write in a row. -/
theorem data_set_row (g : Grid α) (i j : ℕ) (x : α) :
    (g.set i j x).data i = Function.update (g.data i) j x := by
  funext l
  rw [data_set, Function.update_apply]
  exact if_congr (and_iff_right rfl) rfl rfl

/-- A write in a column. -/
theorem down_set (g : Grid α) (i j : ℕ) (x : α) :
    (g.set i j x).down j = Function.update (g.down j) i x := by
  funext k
  rw [down, data_set, Function.update_apply]
  exact if_congr (and_iff_left rfl) rfl rfl

/-- The other rows are as before. -/
theorem data_set_row_of_ne (h : k ≠ i) (g : Grid α) (j : ℕ) (x : α) :
    (g.set i j x).data k = g.data k := funext fun _ => data_set_of_ne g x (.inl h)

/-- The other columns are as before. -/
theorem down_set_of_ne (h : l ≠ j) (g : Grid α) (i : ℕ) (x : α) :
    (g.set i j x).down l = g.down l := funext fun _ => data_set_of_ne g x (.inr h)

end Grid

end Cpp

end Candcpp
