import Mathlib.Data.Set.Card
import Mathlib.Data.Set.Finite.List
import Mathlib.Data.Fintype.Basic

/-!
# Paths over a grid

The paths over the free cells of a grid that lead to the right and down only, from a cell to the
last one (`Candcpp.Path`), and their number (`Candcpp.ways`). A path that does not end at once goes
down first or to the right first, and so **the number for a free cell is the sum of those for the
cell below and the cell to the right** (`Candcpp.ways_eq`), with one more path for the last cell
itself.
-/

namespace Candcpp

/-- A step of a path. -/
inductive GridStep where
  | down : GridStep
  | right : GridStep
  deriving DecidableEq

instance : Fintype GridStep := ⟨{.down, .right}, fun s => by cases s <;> decide⟩

variable {free : ℕ → ℕ → Prop} {m n i j : ℕ} {p : List GridStep}

/-- **A path** from a cell to the cell `(m, n)`, over free cells only. -/
inductive Path (free : ℕ → ℕ → Prop) (m n : ℕ) : ℕ → ℕ → List GridStep → Prop
  /-- The path is at its end. -/
  | last (h : free m n) : Path free m n m n []
  /-- The path goes down. -/
  | down {i j : ℕ} {p : List GridStep} (h : free i j) (hp : Path free m n (i + 1) j p) :
      Path free m n i j (.down :: p)
  /-- The path goes to the right. -/
  | right {i j : ℕ} {p : List GridStep} (h : free i j) (hp : Path free m n i (j + 1) p) :
      Path free m n i j (.right :: p)

/-- The paths from a cell. -/
def paths (free : ℕ → ℕ → Prop) (m n i j : ℕ) : Set (List GridStep) := {p | Path free m n i j p}

/-- **The number of paths** from a cell. -/
noncomputable def ways (free : ℕ → ℕ → Prop) (m n i j : ℕ) : ℕ := (paths free m n i j).ncard

theorem Path.free_first (h : Path free m n i j p) : free i j := by
  cases h with
  | last h => exact h
  | down h _ => exact h
  | right h _ => exact h

theorem Path.free_last (h : Path free m n i j p) : free m n := by
  induction h with
  | last h => exact h
  | down _ _ ih => exact ih
  | right _ _ ih => exact ih

/-- Each step comes nearer to the last cell. -/
theorem Path.length_eq (h : Path free m n i j p) : p.length + i + j = m + n := by
  induction h with
  | last => rw [List.length_nil, Nat.zero_add]
  | down _ _ ih => rw [← ih, List.length_cons]; omega
  | right _ _ ih => rw [← ih, List.length_cons]; omega

theorem finite_paths (free : ℕ → ℕ → Prop) (m n i j : ℕ) : (paths free m n i j).Finite := by
  refine (List.finite_length_le GridStep (m + n)).subset fun p hp => ?_
  have hlen := hp.length_eq
  show p.length ≤ m + n
  omega

/-- There is no path from a cell that is not free. -/
theorem ways_eq_zero (h : ¬ free i j) : ways free m n i j = 0 := by
  have hempty : paths free m n i j = ∅ :=
    Set.eq_empty_of_forall_notMem fun p hp => h hp.free_first
  rw [ways, hempty, Set.ncard_empty]

/-- There is no path to a last cell that is not free. -/
theorem ways_eq_zero_of_last (h : ¬ free m n) : ways free m n i j = 0 := by
  have hempty : paths free m n i j = ∅ :=
    Set.eq_empty_of_forall_notMem fun p hp => h hp.free_last
  rw [ways, hempty, Set.ncard_empty]

/-- **The paths from a free cell** end there, or go on. -/
theorem paths_eq (h : free i j) : paths free m n i j =
    {p | p = [] ∧ i = m ∧ j = n} ∪ (List.cons .down '' paths free m n (i + 1) j ∪
      List.cons .right '' paths free m n i (j + 1)) := by
  ext p
  constructor
  · rintro (_ | ⟨-, hp⟩ | ⟨-, hp⟩)
    · exact .inl ⟨rfl, rfl, rfl⟩
    · exact .inr (.inl ⟨_, hp, rfl⟩)
    · exact .inr (.inr ⟨_, hp, rfl⟩)
  · rintro (⟨rfl, rfl, rfl⟩ | ⟨q, hq, rfl⟩ | ⟨q, hq, rfl⟩)
    · exact .last h
    · exact .down h hq
    · exact .right h hq

/-- The path that ends at once. -/
theorem ncard_last (m n i j : ℕ) :
    {p : List GridStep | p = [] ∧ i = m ∧ j = n}.ncard = if i = m ∧ j = n then 1 else 0 := by
  split_ifs with h
  · have hone : {p : List GridStep | p = [] ∧ i = m ∧ j = n} = {[]} :=
      Set.ext fun p => and_iff_left h
    rw [hone, Set.ncard_singleton]
  · have hempty : {p : List GridStep | p = [] ∧ i = m ∧ j = n} = ∅ :=
      Set.eq_empty_of_forall_notMem fun p hp => h hp.2
    rw [hempty, Set.ncard_empty]

/-- **The number of paths from a free cell.** -/
theorem ways_eq (h : free i j) : ways free m n i j =
    (if i = m ∧ j = n then 1 else 0) + (ways free m n (i + 1) j + ways free m n i (j + 1)) := by
  have hdown := (finite_paths free m n (i + 1) j).image (List.cons GridStep.down)
  have hright := (finite_paths free m n i (j + 1)).image (List.cons GridStep.right)
  have hlast : {p : List GridStep | p = [] ∧ i = m ∧ j = n}.Finite :=
    (Set.finite_singleton []).subset fun p hp => hp.1
  have hapart : Disjoint (List.cons GridStep.down '' paths free m n (i + 1) j)
      (List.cons GridStep.right '' paths free m n i (j + 1)) := by
    rw [Set.disjoint_left]
    rintro p ⟨q, -, rfl⟩ ⟨q', -, hq⟩
    cases List.cons.inj hq
    contradiction
  have hapart' : Disjoint {p : List GridStep | p = [] ∧ i = m ∧ j = n}
      (List.cons GridStep.down '' paths free m n (i + 1) j ∪
        List.cons GridStep.right '' paths free m n i (j + 1)) := by
    rw [Set.disjoint_left]
    rintro p ⟨rfl, -⟩ (⟨q, -, hq⟩ | ⟨q, -, hq⟩) <;> cases hq
  rw [ways, paths_eq h, Set.ncard_union_eq hapart' hlast (hdown.union hright),
    Set.ncard_union_eq hapart hdown hright, ncard_last,
    Set.ncard_image_of_injective _ List.cons_injective,
    Set.ncard_image_of_injective _ List.cons_injective, ways, ways]

end Candcpp
