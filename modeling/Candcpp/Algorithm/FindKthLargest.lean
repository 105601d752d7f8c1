import Candcpp.Cpp.SiftDown

/-!
# The k-th largest element

The class of `215.cpp`, which makes a maximum heap of a vector, deletes its first element `k - 1`
times, and returns the first element of what is left.

The order is that of `Candcpp.BinaryHeap`, with the greater keys first
(`Candcpp.FindKthLargest.maxHeap_iff`). `heapify` moves an element down to its place
(`Candcpp.FindKthLargest.siftsDown_heapify`); with it the vector is ordered from behind
(`Candcpp.FindKthLargest.build_spec`), and the heap restored after the last element has been put in
the place of the first one (`Candcpp.FindKthLargest.popFirst_spec`). **What is returned is the
k-th element in decreasing order** (`Candcpp.FindKthLargest.findKthLargest_spec`).

An index is an integer, and not bounded; the division of C++ rounds towards zero, so that the loop
visits the root also if there is no second element.
-/

namespace Candcpp

open Cpp BinaryHeap OrderDual

namespace FindKthLargest

/-! ### The code -/

/-- `myswap`. -/
def myswap (nums : Arr ℤ) (i j : ℤ) : Exec (Arr ℤ) := nums.exchange i j

/-- The child that `heapify` compares with. -/
def greaterChild (nums : Arr ℤ) (left right n : ℤ) : Exec ℤ := do
  if right < n then
    let r ← nums.getInt right
    let l ← nums.getInt left
    pure (if r > l then right else left)
  else
    pure left

/-- `heapify`. -/
def heapify (nums : Arr ℤ) (node : ℤ) : Exec (Arr ℤ) := do
  let +zeta heapify : type_of% heapify := by apply heapify
  let n : ℤ := nums.size
  let left := node * 2 + 1
  let right := node * 2 + 2
  if left ≥ n then
    pure nums
  else
    let idx ← greaterChild nums left right n
    let x ← nums.getInt idx
    let y ← nums.getInt node
    if x > y then
      let nums ← myswap nums node idx
      heapify nums idx
    else
      pure nums
partial_fixpoint

/-- `pop_first`. -/
def popFirst (nums : Arr ℤ) : Exec (Arr ℤ) := do
  let back ← nums.getInt (nums.size - 1)
  let nums ← nums.putInt 0 back
  let nums ← nums.popBack
  heapify nums 0

/-- `for (int i = (n - 1) / 2; i >= 0; i--)`, which leaves behind `nums`. -/
def buildLoop (nums : Arr ℤ) (i : ℤ) : Exec (Arr ℤ) := do
  let +zeta buildLoop : type_of% buildLoop := by apply buildLoop
  if i ≥ 0 then
    let nums ← heapify nums i
    buildLoop nums (i - 1)
  else
    pure nums
partial_fixpoint

/-- `while (k--)`, which leaves behind `nums`. -/
def popLoop (nums : Arr ℤ) (k : ℤ) : Exec (Arr ℤ) := do
  let +zeta popLoop : type_of% popLoop := by apply popLoop
  if k = 0 then
    pure nums
  else
    let nums ← popFirst nums
    popLoop nums (k - 1)
partial_fixpoint

/-- `findKthLargest`, which leaves behind the vector of its caller. -/
def findKthLargest (nums : Arr ℤ) (k : ℤ) : Exec (ℤ × Arr ℤ) := do
  let n : ℤ := nums.size - 1
  let nums ← buildLoop nums ((n - 1).tdiv 2)
  let nums ← popLoop nums (k - 1)
  let x ← nums.getInt 0
  pure (x, nums)

/-! ### The order -/

/-- **A maximum heap**: no element is less than its children. -/
def MaxHeap (nums : Arr ℤ) : Prop :=
  ∀ i, (2 * i + 1 < nums.size → nums.data (2 * i + 1) ≤ nums.data i) ∧
    (2 * i + 2 < nums.size → nums.data (2 * i + 2) ≤ nums.data i)

variable {nums : Arr ℤ} {i k : ℕ} {l : List ℤ} {x : ℤ}

theorem maxHeap_iff : MaxHeap nums ↔ IsHeap (toDual ∘ nums.data) nums.size := by
  rw [MaxHeap, isHeap_iff]
  rfl

/-- The first element is the greatest. -/
theorem MaxHeap.le_root (h : MaxHeap nums) (hx : x ∈ nums.toList) : x ≤ nums.data 0 := by
  obtain ⟨i, hi, rfl⟩ := List.mem_map.mp hx
  exact (maxHeap_iff.mp h).root_le (List.mem_range.mp hi)

/-- The first element begins the list of the elements in decreasing order. -/
theorem MaxHeap.root_eq (h : MaxHeap nums) (hl : (x :: l).Pairwise (· ≥ ·))
    (hp : nums.toList.Perm (x :: l)) : nums.data 0 = x := by
  have hpos : 0 < nums.size := by
    rw [← Arr.length_toList, hp.length_eq]
    exact Nat.succ_pos _
  refine le_antisymm ?_ (h.le_root (hp.mem_iff.mpr List.mem_cons_self))
  rcases List.mem_cons.mp (hp.mem_iff.mp (Arr.mem_toList hpos)) with heq | hmem
  · exact heq.le
  · exact (List.pairwise_cons.mp hl).1 _ hmem

/-! ### Moving an element down -/

/-- **The greater child** of a position that has one. -/
theorem greaterChild_eq (hi : 2 * i + 1 < nums.size) : ∃ c : ℕ,
    greaterChild nums ((i : ℤ) * 2 + 1) ((i : ℤ) * 2 + 2) nums.size = pure (c : ℤ) ∧
      (c = 2 * i + 1 ∨ c = 2 * i + 2) ∧ c < nums.size ∧
      ∀ c', (c' = 2 * i + 1 ∨ c' = 2 * i + 2) → c' < nums.size → nums.data c' ≤ nums.data c := by
  have hl : (i : ℤ) * 2 + 1 = (2 * i + 1 : ℕ) := by omega
  have hr : (i : ℤ) * 2 + 2 = (2 * i + 2 : ℕ) := by omega
  rw [greaterChild, hl, hr]
  by_cases hsecond : 2 * i + 2 < nums.size
  · rw [if_pos (by omega), Arr.getInt_eq hsecond, pure_bind, Arr.getInt_eq hi, pure_bind]
    by_cases hlt : nums.data (2 * i + 2) > nums.data (2 * i + 1)
    · refine ⟨2 * i + 2, by rw [if_pos hlt], .inr rfl, hsecond, ?_⟩
      rintro c' (rfl | rfl) -
      · exact hlt.le
      · exact le_rfl
    · refine ⟨2 * i + 1, by rw [if_neg hlt], .inl rfl, hi, ?_⟩
      rintro c' (rfl | rfl) -
      · exact le_rfl
      · exact not_lt.mp hlt
  · refine ⟨2 * i + 1, by rw [if_neg (by omega)], .inl rfl, hi, ?_⟩
    rintro c' (rfl | rfl) hc'
    · exact le_rfl
    · exact absurd hc' hsecond

/-- **`heapify`** moves an element down to its place. -/
theorem siftsDown_heapify : SiftsDown toDual heapify where
  leaf nums i hi := by rw [heapify, if_pos (by omega)]
  node nums i hi := by
    obtain ⟨c, hcode, hc, hcn, hmax⟩ := greaterChild_eq hi
    refine ⟨c, hc, hcn, hmax, ?_⟩
    rw [heapify, if_neg (by omega), hcode, pure_bind, Arr.getInt_eq hcn, pure_bind,
      Arr.getInt_eq (show i < nums.size by omega), pure_bind, myswap,
      Arr.exchange_eq (by omega) hcn, pure_bind]
    exact if_congr toDual_lt_toDual.symm rfl rfl

/-! ### Building the heap -/

/-- The position where the loop begins is behind the last one with a child, or it is the root. -/
theorem exists_first (n : ℕ) : ∃ m : ℕ, ((n : ℤ) - 1 - 1).tdiv 2 = m - 1 ∧ n ≤ 2 * m + 1 := by
  rcases n with _ | _ | n
  · exact ⟨0, rfl, Nat.zero_le _⟩
  · exact ⟨1, rfl, by omega⟩
  · refine ⟨n / 2 + 1, ?_, by omega⟩
    rw [show ((n + 1 + 1 : ℕ) : ℤ) - 1 - 1 = n by omega, Int.natCast_tdiv_eq_ediv]
    omega

/-- **Any vector becomes a maximum heap.** -/
theorem build_spec (nums : Arr ℤ) : ∃ heap,
    buildLoop nums (((nums.size : ℤ) - 1 - 1).tdiv 2) = pure heap ∧
      heap.toList.Perm nums.toList ∧ MaxHeap heap := by
  obtain ⟨m, hm, hle⟩ := exists_first nums.size
  have hloop : ∀ nums i, buildLoop nums i =
      if 0 ≤ i then (heapify nums i >>= fun nums => buildLoop nums (i - 1)) else pure nums := by
    intro nums i
    rw [buildLoop]
  obtain ⟨heap, hrun, hperm, hheap⟩ := siftsDown_heapify.build hloop nums hle
  rw [hm]
  exact ⟨heap, hrun, hperm, maxHeap_iff.mpr hheap⟩

/-! ### Deleting the greatest element -/

/-- **`pop_first`** deletes the greatest element, and restores the heap. -/
theorem popFirst_spec (h : MaxHeap nums) (hpos : 0 < nums.size) :
    ∃ nums', popFirst nums = pure nums' ∧ (nums.data 0 :: nums'.toList).Perm nums.toList ∧
      MaxHeap nums' := by
  obtain ⟨n, hn⟩ := Nat.exists_eq_succ_of_ne_zero hpos.ne'
  obtain ⟨nums', hrun, hperm, hheap⟩ := siftsDown_heapify.pop (maxHeap_iff.mp h) hn
  refine ⟨nums', ?_, hperm, maxHeap_iff.mpr hheap⟩
  have hlast : (nums.size : ℤ) - 1 = (n : ℕ) := by omega
  have hput := Arr.putInt_eq (a := nums) (i := 0) hpos (nums.data n)
  have hpop := Arr.popBack_eq (a := ⟨Function.update nums.data 0 (nums.data n), nums.size⟩) hn
  have hback := Arr.getInt_eq (a := nums) (i := n) (by omega)
  rw [Nat.cast_zero] at hput
  rw [popFirst, hlast, hback, pure_bind, hput, pure_bind, hpop, pure_bind, hrun]

/-- **The loop** deletes the greatest elements, where they are listed in decreasing order. -/
theorem popLoop_spec (h : MaxHeap nums) (hl : l.Pairwise (· ≥ ·)) (hp : nums.toList.Perm l)
    (hk : k < l.length) : ∃ nums', popLoop nums k = pure nums' ∧
      nums'.toList.Perm (l.drop k) ∧ MaxHeap nums' := by
  induction k generalizing nums l with
  | zero => exact ⟨nums, by rw [popLoop, if_pos (by omega)], hp, h⟩
  | succ k ih =>
    cases l with
    | nil => exact absurd hk (Nat.not_lt_zero _)
    | cons x l =>
      have hpos : 0 < nums.size := by
        rw [← Arr.length_toList, hp.length_eq]
        exact Nat.succ_pos _
      obtain ⟨nums', hrun, hperm, hheap⟩ := popFirst_spec h hpos
      rw [h.root_eq hl hp] at hperm
      obtain ⟨nums'', hrun', hperm', hheap'⟩ := ih hheap hl.of_cons (hperm.trans hp).cons_inv
        (Nat.lt_of_succ_lt_succ hk)
      rw [popLoop, if_neg (by omega), hrun, pure_bind, Nat.cast_succ, add_sub_cancel_right]
      exact ⟨nums'', hrun', hperm', hheap'⟩

/-! ### The function -/

/-- **The k-th largest element is returned**, counted with its multiplicity: the one at the position
`k`, from 1 on, in decreasing order. The vector of the caller keeps the elements from there on, as
a heap. -/
theorem findKthLargest_spec (hk : 1 ≤ k) (hkn : k ≤ nums.size) :
    ∃ x nums', findKthLargest nums k = pure (x, nums') ∧
      (nums.toList.insertionSort (· ≥ ·))[k - 1]? = some x ∧
      nums'.toList.Perm ((nums.toList.insertionSort (· ≥ ·)).drop (k - 1)) ∧ MaxHeap nums' := by
  obtain ⟨l, hsort⟩ : ∃ l, l = nums.toList.insertionSort (· ≥ ·) := ⟨_, rfl⟩
  have hl : l.Pairwise (· ≥ ·) := hsort ▸ List.pairwise_insertionSort _ _
  have hp : l.Perm nums.toList := hsort ▸ List.perm_insertionSort _ _
  have hlen : l.length = nums.size := by rw [hp.length_eq, Arr.length_toList]
  obtain ⟨heap, hbuild, hperm, hheap⟩ := build_spec nums
  obtain ⟨nums', hpops, hperm', hheap'⟩ := popLoop_spec (k := k - 1) hheap hl
    (hperm.trans hp.symm) (by omega)
  have hdrop : l.drop (k - 1) = l[k - 1] :: l.drop (k - 1 + 1) := List.drop_eq_getElem_cons _
  have hroot : nums'.data 0 = l[k - 1] :=
    hheap'.root_eq (hdrop ▸ hl.drop) (hdrop ▸ hperm')
  have hpos : 0 < nums'.size := by
    rw [← Arr.length_toList, hperm'.length_eq, List.length_drop]
    omega
  have hget := Arr.getInt_eq hpos
  rw [Nat.cast_zero, hroot] at hget
  rw [Nat.cast_sub hk, Nat.cast_one] at hpops
  rw [← hsort]
  refine ⟨_, nums', ?_, List.getElem?_eq_getElem (by omega), hperm', hheap'⟩
  rw [findKthLargest, hbuild, pure_bind, hpops, pure_bind, hget, pure_bind]

end FindKthLargest

end Candcpp
