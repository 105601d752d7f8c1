import Candcpp.Cpp.Exec

/-!
# Arrays whose accesses are logged

For statements about the order in which the elements of an array are read and written, the array is
taken together with a log of its accesses, the last one first: a `Candcpp.Cpp.Watched`. The program
is what it is without a log.

A program that moves elements within an array must not write where it is still going to read
(`Candcpp.Cpp.ReadsFirst`). This holds as long as all writes so far are above some bound, and the
program only reads below it (`Candcpp.Cpp.ReadsFirst.read`).
-/

namespace Candcpp

namespace Cpp

/-- An access to an element of an array. -/
inductive Access where
  /-- The element at a position is read. -/
  | read (i : ℤ) : Access
  /-- The element at a position is written. -/
  | write (i : ℤ) : Access
  deriving DecidableEq, Repr

/-- An array, and the accesses to it so far. -/
structure Watched (α : Type) where
  arr : Arr α
  log : List Access

/-- **Nothing is read after it has been written**: no write overwrites what is still to be read. -/
def ReadsFirst (log : List Access) : Prop :=
  log.Pairwise fun later earlier => ∀ i, later = .read i → earlier ≠ .write i

/-- All writes are above a bound. -/
def WritesAbove (log : List Access) (b : ℤ) : Prop := ∀ i, .write i ∈ log → b < i

namespace Watched

variable {α : Type} {w : Watched α} {i : ℕ} {x : α}

/-- `a[i]`, read. -/
def get (w : Watched α) (i : ℤ) : Exec (α × Watched α) := do
  let x ← w.arr.getInt i
  pure (x, { w with log := .read i :: w.log })

/-- `a[i] = x`. -/
def put (w : Watched α) (i : ℤ) (x : α) : Exec (Watched α) := do
  let arr ← w.arr.putInt i x
  pure { arr := arr, log := .write i :: w.log }

theorem get_eq (h : i < w.arr.size) :
    w.get i = pure (w.arr.data i, { w with log := .read i :: w.log }) := by
  rw [get, Arr.getInt_eq h, pure_bind]

theorem put_eq (h : i < w.arr.size) (x : α) : w.put i x =
    pure { arr := { w.arr with data := Function.update w.arr.data i x },
           log := .write i :: w.log } := by
  rw [put, Arr.putInt_eq h, pure_bind]

end Watched

variable {log : List Access} {b b' i : ℤ}

theorem readsFirst_nil : ReadsFirst [] := .nil

theorem writesAbove_nil (b : ℤ) : WritesAbove [] b := fun _ h => absurd h List.not_mem_nil

theorem WritesAbove.mono (h : WritesAbove log b) (hb : b' ≤ b) : WritesAbove log b' :=
  fun i hi => hb.trans_lt (h i hi)

theorem WritesAbove.read (h : WritesAbove log b) (i : ℤ) : WritesAbove (.read i :: log) b := by
  intro k hk
  rcases List.mem_cons.mp hk with heq | hk
  · cases heq
  · exact h k hk

theorem WritesAbove.write (h : WritesAbove log b) (hi : b < i) :
    WritesAbove (.write i :: log) b := by
  intro k hk
  rcases List.mem_cons.mp hk with heq | hk
  · cases heq
    exact hi
  · exact h k hk

/-- **What is read** is below all that has been written. -/
theorem ReadsFirst.read (h : ReadsFirst log) (hw : WritesAbove log b) (hi : i ≤ b) :
    ReadsFirst (.read i :: log) := by
  refine List.pairwise_cons.mpr ⟨?_, h⟩
  rintro _ hmem k ⟨⟩ rfl
  exact absurd (hw i hmem) (not_lt.mpr hi)

theorem ReadsFirst.write (h : ReadsFirst log) (i : ℤ) : ReadsFirst (.write i :: log) := by
  refine List.pairwise_cons.mpr ⟨?_, h⟩
  rintro _ - k ⟨⟩

end Cpp

end Candcpp
