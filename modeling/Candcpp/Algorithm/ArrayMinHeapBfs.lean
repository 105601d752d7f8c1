import Candcpp.Algorithm.ArrayMinHeap
import Candcpp.Cpp.LevelQueue

/-!
# The levels of a minimum heap

The method `bfs` of the class `ArrayMinHeap`, which prints the elements of the heap level by level,
with a queue of their positions.

The positions of a level are consecutive, and those of the level below begin behind them
(`Candcpp.ArrayMinHeap.generation_eq`), so that the elements are printed in the order in which the
vector holds them. There are two kinds of heaps for which this does not happen. The position of the
root comes into the queue before it is known whether there is a root, and is read also where the
heap is empty; and for the position 2^30 - 1 the position of the second child is no `int`. **In
every other case each element is printed once, in order** (`Candcpp.ArrayMinHeap.bfs_iff`).
-/

namespace Candcpp

open Cpp

namespace ArrayMinHeap

/-! ### The code -/

/-- `if (child <= end) { q.push(child); }`: what is put at the end of the queue. -/
def pushChild (last child : ℤ) : List ℤ := if child ≤ last then [child] else []

/-- What `bfs` does with a position that it has taken out of the queue. -/
def visit (s : ArrayMinHeap) (last nodeIdx : ℤ) : Exec (ℤ × List ℤ) := do
  let x ← s.heap.getInt nodeIdx
  let left ← int (nodeIdx * 2 + 1)
  let right ← int (nodeIdx * 2 + 2)
  pure (x, pushChild last left ++ pushChild last right)

/-- `bfs()`: the lines that are printed. -/
def bfs (s : ArrayMinHeap) : Exec (List (List ℤ)) := do
  let last : ℤ := s.heap.size - 1
  levelsLoop (s.visit last) [0] []

/-! ### The positions of a level -/

variable {s : ArrayMinHeap} {size k n : ℕ} {last i : ℤ} {out : List (List ℤ)}

/-- The positions of the children. -/
def children (last i : ℤ) : List ℤ := pushChild last (i * 2 + 1) ++ pushChild last (i * 2 + 2)

/-- Those of them that are in the heap. -/
def childPositions (size i : ℕ) : List ℕ := [2 * i + 1, 2 * i + 2].filter (· < size)

/-- The positions of the level `k`. -/
def positions (size k : ℕ) : List ℕ := (List.range' (2 ^ k - 1) (2 ^ k)).filter (· < size)

theorem children_natCast (size i : ℕ) :
    children (size - 1) i = (childPositions size i).map Nat.cast := by
  have hpush : ∀ c : ℕ, pushChild (size - 1) c = ([c].filter (· < size)).map Nat.cast := by
    intro c
    rw [pushChild]
    by_cases hc : c < size
    · rw [if_pos (by omega), List.filter_cons_of_pos (by simpa using hc)]
      rfl
    · rw [if_neg (by omega), List.filter_cons_of_neg (by simpa using hc)]
      rfl
  have hleft := hpush (2 * i + 1)
  have hright := hpush (2 * i + 2)
  push_cast at hleft hright
  rw [children, mul_comm, hleft, hright, ← List.map_append, ← List.filter_append]
  rfl

/-- **The children of consecutive positions** are consecutive. -/
theorem flatMap_childPositions (size a n : ℕ) :
    ((List.range' a n).filter (· < size)).flatMap (childPositions size) =
      (List.range' (2 * a + 1) (2 * n)).filter (· < size) := by
  induction n generalizing a with
  | zero => rfl
  | succ n ih =>
    have hnext : List.range' (2 * a + 1) (2 * (n + 1)) =
        [2 * a + 1, 2 * a + 2] ++ List.range' (2 * (a + 1) + 1) (2 * n) := rfl
    rw [hnext, List.filter_append, ← ih, List.range'_succ]
    by_cases ha : a < size
    · rw [List.filter_cons_of_pos (by simpa using ha), List.flatMap_cons]
      rfl
    · have hnone : [2 * a + 1, 2 * a + 2].filter (· < size) = [] := by
        rw [List.filter_eq_nil_iff]
        simp only [List.mem_cons, List.not_mem_nil, or_false, decide_eq_true_eq]
        omega
      rw [List.filter_cons_of_neg (by simpa using ha), hnone, List.nil_append]

/-- **The levels of the traversal** are those of the heap. -/
theorem generation_eq (hsize : 0 < size) (k : ℕ) :
    generation (children (size - 1)) [0] k = (positions size k).map Nat.cast := by
  induction k with
  | zero =>
    rw [positions, show List.range' (2 ^ 0 - 1) (2 ^ 0) = [0] from rfl,
      List.filter_cons_of_pos (by simpa using hsize)]
    rfl
  | succ k ih =>
    have hpow := Nat.one_le_two_pow (n := k)
    rw [generation_succ, ih, List.flatMap_map]
    simp only [children_natCast]
    rw [← List.map_flatMap, positions, flatMap_childPositions, positions, pow_succ,
      show 2 * (2 ^ k - 1) + 1 = 2 ^ k * 2 - 1 by omega, mul_comm 2]

/-- A level is empty if there are no more elements than above it. -/
theorem positions_eq_nil_iff : positions size k = [] ↔ size ≤ 2 ^ k - 1 := by
  have hpow := Nat.one_le_two_pow (n := k)
  rw [positions, List.filter_eq_nil_iff]
  simp only [List.mem_range'_1, decide_eq_true_eq]
  constructor
  · intro h
    exact not_lt.mp (h (2 ^ k - 1) ⟨le_rfl, by omega⟩)
  · intro h a ha
    omega

/-- **The levels one after the other** are all positions. -/
theorem flatMap_positions (size n : ℕ) : (List.range n).flatMap (positions size) =
    (List.range (2 ^ n - 1)).filter (· < size) := by
  induction n with
  | zero => rfl
  | succ n ih =>
    have hpow := Nat.one_le_two_pow (n := n)
    rw [List.range_succ, List.flatMap_append, ih, List.flatMap_singleton, positions,
      ← List.filter_append, List.range_eq_range', List.range_eq_range', pow_succ,
      show 2 ^ n * 2 - 1 = 2 ^ n - 1 + 2 ^ n by omega, ← List.range'_append_1, zero_add]

theorem filter_range (h : size ≤ n) : (List.range n).filter (· < size) = List.range size := by
  obtain ⟨d, rfl⟩ := Nat.exists_eq_add_of_le h
  rw [List.range_eq_range', ← List.range'_append_1, List.filter_append, zero_add,
    List.filter_eq_self.mpr, List.filter_eq_nil_iff.mpr, List.append_nil, List.range_eq_range']
  · simp only [List.mem_range'_1, decide_eq_true_eq]
    omega
  · simp only [List.mem_range'_1, decide_eq_true_eq]
    omega

/-! ### The traversal -/

/-- **A position is visited** if it is in the heap and the positions of its children are `int`s. -/
theorem visit_eq {i : ℕ} (hi : i < s.heap.size) (hint : (i : ℤ) * 2 + 2 ≤ intMax) :
    s.visit last i = pure (s.heap.data i, children last i) := by
  have hmin : intMin ≤ 0 := by decide
  rw [visit, Arr.getInt_eq hi, pure_bind, int_eq (by omega) (by omega), pure_bind,
    int_eq (by omega) hint, pure_bind, children]

/-- What a position that has been visited must be. -/
theorem of_visit {r : ℤ × List ℤ} (h : s.visit last i = pure r) :
    i.toNat < s.heap.size ∧ i * 2 + 2 ≤ intMax ∧ r.2 = children last i := by
  rw [visit] at h
  obtain ⟨x, hx, h⟩ := Exec.bind_eq_pure.mp h
  obtain ⟨left, hleft, h⟩ := Exec.bind_eq_pure.mp h
  obtain ⟨right, hright, h⟩ := Exec.bind_eq_pure.mp h
  obtain ⟨-, rfl⟩ := int_eq_pure.mp hleft
  obtain ⟨⟨-, hle⟩, rfl⟩ := int_eq_pure.mp hright
  refine ⟨?_, hle, ?_⟩
  · by_contra hout
    rw [Arr.getInt, Arr.get, if_neg hout] at hx
    split_ifs at hx <;> exact Exec.pure_ne_throw _ _ hx.symm
  · rw [← Exec.pure_inj.mp h]
    rfl

/-- **The elements are printed** once each and in order, if there is one and fewer than 2^30. -/
theorem bfs_eq (hpos : 0 < s.heap.size) (hsize : s.heap.size < 2 ^ 30) :
    ∃ out, s.bfs = pure out ∧ out.flatten = s.heap.toList := by
  have hex : ∃ n, positions s.heap.size n = [] :=
    ⟨s.heap.size, positions_eq_nil_iff.mpr (Nat.le_sub_one_of_lt Nat.lt_two_pow_self)⟩
  classical
  have hn := Nat.find_spec hex
  have hmin := fun k (hk : k < Nat.find hex) => Nat.find_min hex hk
  generalize Nat.find hex = n at hn hmin
  have hlevel : ∀ k, generation (children (s.heap.size - 1)) [0] k =
      (positions s.heap.size k).map Nat.cast := generation_eq hpos
  have hvisit : ∀ k < n, ∀ a ∈ generation (children (s.heap.size - 1)) [0] k,
      s.visit (s.heap.size - 1) a = pure (s.heap.data a.toNat, children (s.heap.size - 1) a) := by
    intro k _ a ha
    rw [hlevel, positions] at ha
    obtain ⟨i, hi, rfl⟩ := List.mem_map.mp ha
    have hlt : i < s.heap.size := by simpa using List.of_mem_filter hi
    rw [visit_eq hlt (by rw [intMax]; omega), Int.toNat_natCast]
  refine ⟨_, levelsLoop_eq (fun i => s.heap.data i.toNat) (by rw [hlevel, hn, List.map_nil])
    (fun k hk => by rw [hlevel]; simpa using hmin k hk) hvisit [], ?_⟩
  have hline : ∀ k, (generation (children (s.heap.size - 1)) [0] k).map
      (fun i => s.heap.data i.toNat) = (positions s.heap.size k).map s.heap.data := by
    intro k
    rw [hlevel, List.map_map]
    rfl
  simp only [hline, List.nil_append]
  rw [← List.flatMap_def, ← List.map_flatMap, flatMap_positions,
    filter_range (positions_eq_nil_iff.mp hn)]
  rfl

/-- **A traversal that returns** has come to the first position of every level that there is. -/
theorem exists_queue (h : s.bfs = pure out) (k : ℕ) (hk : 2 ^ k ≤ s.heap.size) :
    ∃ q lines, ((2 ^ k - 1 : ℕ) : ℤ) ∈ q ∧
      levelsLoop (s.visit (s.heap.size - 1)) q lines = pure out := by
  induction k with
  | zero => exact ⟨[0], [], by simp, h⟩
  | succ k ih =>
    have hpow := Nat.one_le_two_pow (n := k)
    rw [pow_succ] at hk
    obtain ⟨q, lines, hmem, hrun⟩ := ih (by omega)
    obtain ⟨r, hr, q', lines', hkids, hrun'⟩ := levelsLoop_visits hrun hmem
    refine ⟨q', lines', hkids _ ?_, hrun'⟩
    rw [(of_visit hr).2.2, children, pushChild, if_pos (by omega), pow_succ]
    refine List.mem_append_left _ (List.mem_singleton.mpr ?_)
    omega

/-- **Each element is printed once, in the order of the positions**, exactly if the heap is not
empty and has fewer than 2^30 elements. -/
theorem bfs_iff : (∃ out, s.bfs = pure out ∧ out.flatten = s.heap.toList) ↔
    0 < s.heap.size ∧ s.heap.size < 2 ^ 30 := by
  constructor
  · rintro ⟨out, h, -⟩
    constructor
    · obtain ⟨r, hr, -⟩ := levelsLoop_visits h List.mem_cons_self
      exact (of_visit hr).1
    · by_contra hge
      obtain ⟨q, lines, hmem, hrun⟩ := exists_queue h 30 (not_lt.mp hge)
      obtain ⟨r, hr, -⟩ := levelsLoop_visits hrun hmem
      have hle := (of_visit hr).2.1
      rw [intMax] at hle
      norm_num at hle
  · rintro ⟨hpos, hsize⟩
    exact bfs_eq hpos hsize

/-- **The empty heap**, as the first constructor makes it, is not printed. -/
theorem not_bfs : ¬ ∃ out, empty.bfs = pure out ∧ out.flatten = empty.heap.toList := by
  rintro ⟨out, h, -⟩
  obtain ⟨r, hr, -⟩ := levelsLoop_visits h List.mem_cons_self
  exact Nat.not_lt_zero 0 (of_visit hr).1

end ArrayMinHeap

end Candcpp
