import Candcpp.Cpp.Segments

/-!
# Bubble sort

The three versions of `bubble_sort.cpp`. `bubble_sort_head` goes from the end of the array to the
front, and in each round brings the least element that is left to the front of those that are;
`bubble_sort_tail` and the template `bubble_sort` go the other way, and bring the greatest one to
the end.

Each of them sorts the first `n` elements and leaves the others alone
(`Candcpp.BubbleSort.bubbleSortHead_sorts`, `Candcpp.BubbleSort.bubbleSort_sorts`), and so **they
leave behind the same array** (`Candcpp.BubbleSort.same_array`).

A position is less than `n`, which is an `int`, so that no position overflows. The template is for
the elements of any linear order.
-/

namespace Candcpp

open Cpp

namespace BubbleSort

/-! ### The code -/

/-- `for (int j = n - 1; j > i; j--)`. -/
def headLoop (arr : Arr ℤ) (i j : ℤ) : Exec (Arr ℤ) := do
  let +zeta headLoop : type_of% headLoop := by apply headLoop
  if j > i then
    let x ← arr.getInt j
    let y ← arr.getInt (j - 1)
    if x < y then
      let arr ← arr.exchange (j - 1) j
      headLoop arr i (j - 1)
    else
      headLoop arr i (j - 1)
  else
    pure arr
partial_fixpoint

/-- `for (int i = 0; i < n - 1; i++)` of `bubble_sort_head`. -/
def headRounds (arr : Arr ℤ) (n i : ℤ) : Exec (Arr ℤ) := do
  let +zeta headRounds : type_of% headRounds := by apply headRounds
  if i < n - 1 then
    let arr ← headLoop arr i (n - 1)
    headRounds arr n (i + 1)
  else
    pure arr
partial_fixpoint

/-- `bubble_sort_head`. -/
def bubbleSortHead (arr : Arr ℤ) (n : ℤ) : Exec (Arr ℤ) := headRounds arr n 0

section Template

variable {α : Type} [LinearOrder α]

/-- `for (int j = 0; j < n - 1 - i; j++)`. -/
def tailLoop (arr : Arr α) (n i j : ℤ) : Exec (Arr α) := do
  let +zeta tailLoop : type_of% tailLoop := by apply tailLoop
  if j < n - 1 - i then
    let x ← arr.getInt j
    let y ← arr.getInt (j + 1)
    if x > y then
      let arr ← arr.exchange (j + 1) j
      tailLoop arr n i (j + 1)
    else
      tailLoop arr n i (j + 1)
  else
    pure arr
partial_fixpoint

/-- `for (int i = 0; i < n - 1; i++)` of `bubble_sort`. -/
def tailRounds (arr : Arr α) (n i : ℤ) : Exec (Arr α) := do
  let +zeta tailRounds : type_of% tailRounds := by apply tailRounds
  if i < n - 1 then
    let arr ← tailLoop arr n i 0
    tailRounds arr n (i + 1)
  else
    pure arr
partial_fixpoint

/-- The template `bubble_sort`. -/
def bubbleSort (arr : Arr α) (n : ℤ) : Exec (Arr α) := tailRounds arr n 0

end Template

/-- `bubble_sort_tail`, which does the same for an array of `int`s. -/
def bubbleSortTail (arr : Arr ℤ) (n : ℤ) : Exec (Arr ℤ) := bubbleSort arr n

variable {α : Type} [LinearOrder α] {n i j : ℕ}

/-! ### The least element to the front -/

section Head

variable {arr : Arr ℤ}

/-- **One turn of the inner loop** puts two neighbours in order. -/
theorem headLoop_turn (hij : i < j) (hj : j < arr.size) : ∃ arr',
    headLoop arr i j = headLoop arr' i (j - 1 : ℕ) ∧ arr'.size = arr.size ∧
      Rearranged (j - 1) j arr.data arr'.data ∧ arr'.data (j - 1) ≤ arr'.data j := by
  have hcast : (j : ℤ) - 1 = (j - 1 : ℕ) := by omega
  have hj' : j - 1 < arr.size := by omega
  rw [headLoop, if_pos (by omega), Arr.getInt_eq hj, pure_bind, hcast, Arr.getInt_eq hj',
    pure_bind]
  by_cases hlt : arr.data j < arr.data (j - 1)
  · rw [if_pos hlt, Arr.exchange_eq hj' hj, pure_bind]
    exact ⟨arr.swapped (j - 1) j, rfl, rfl, .swap (by omega) (by omega), by simpa using hlt.le⟩
  · rw [if_neg hlt]
    exact ⟨arr, rfl, rfl, .refl _ _ _, not_lt.mp hlt⟩

/-- **The inner loop** brings the least element to the front. -/
theorem headLoop_eq {hi : ℕ} (hij : i ≤ j) (hj : j ≤ hi) (hhi : hi < arr.size)
    (hmin : ∀ m, j ≤ m → m ≤ hi → arr.data j ≤ arr.data m) : ∃ arr',
    headLoop arr i j = pure arr' ∧ arr'.size = arr.size ∧ Rearranged i hi arr.data arr'.data ∧
      ∀ m, i ≤ m → m ≤ hi → arr'.data i ≤ arr'.data m := by
  induction hn : j - i generalizing j arr with
  | zero =>
    obtain rfl : j = i := by omega
    rw [headLoop, if_neg (lt_irrefl _)]
    exact ⟨arr, rfl, rfl, .refl _ _ _, hmin⟩
  | succ n ih =>
    have hjsize : j < arr.size := by omega
    obtain ⟨arr₁, hturn, hsize, hr, hle⟩ := headLoop_turn (i := i) (by omega) hjsize
    have hpair : ∀ m, j - 1 ≤ m → m ≤ j → arr₁.data (j - 1) ≤ arr₁.data m := by
      intro m hm hmj
      rcases (show m = j - 1 ∨ m = j by omega) with rfl | rfl
      · exact le_rfl
      · exact hle
    have hmin₁ : ∀ m, j - 1 ≤ m → m ≤ hi → arr₁.data (j - 1) ≤ arr₁.data m := by
      intro m hm hmhi
      rcases Nat.lt_or_ge j m with hlt | hge
      · -- the least element so far is one of the two neighbours
        rw [hr.outside (.inr hlt)]
        exact (hr.symm.all hpair (Nat.sub_le j 1) le_rfl).trans (hmin m hlt.le hmhi)
      · exact hpair m hm hge
    obtain ⟨arr', hrun, hsize', hr', hmin'⟩ :=
      ih (by omega) (by omega) (hsize ▸ hhi) hmin₁ (by omega)
    exact ⟨arr', hturn.trans hrun, hsize'.trans hsize,
      (hr.mono (by omega) hj).trans hr', hmin'⟩

/-- **The rounds** sort what is left. -/
theorem headRounds_eq (hi : i ≤ n) (hn : n < arr.size) (hs : SortedTo arr.data (n + 1) i) :
    ∃ arr', headRounds arr (n + 1 : ℕ) i = pure arr' ∧ arr'.size = arr.size ∧
      Rearranged 0 n arr.data arr'.data ∧ SortedTo arr'.data (n + 1) n := by
  have hlast : ((n + 1 : ℕ) : ℤ) - 1 = n := by omega
  induction hm : n - i generalizing i arr with
  | zero =>
    obtain rfl : i = n := by omega
    rw [headRounds, if_neg (by omega)]
    exact ⟨arr, rfl, rfl, .refl _ _ _, hs⟩
  | succ m ih =>
    obtain ⟨arr₁, hloop, hsize, hr, hmin⟩ := headLoop_eq (i := i) (j := n) hi le_rfl hn
      fun m hm hm' => by rw [le_antisymm hm hm']
    obtain ⟨arr', hrun, hsize', hr', hs'⟩ :=
      ih (by omega) (hsize ▸ hn) (hs.extend hr rfl hmin) (by omega)
    have hnext : (i : ℤ) + 1 = (i + 1 : ℕ) := by push_cast; rfl
    rw [headRounds, if_pos (by omega), hlast, hloop, pure_bind, hnext, hrun]
    exact ⟨arr', rfl, hsize'.trans hsize, (hr.mono (Nat.zero_le i) le_rfl).trans hr', hs'⟩

/-- **`bubble_sort_head` sorts** the first `n` elements. -/
theorem bubbleSortHead_sorts (hn : n ≤ arr.size) :
    ∃ arr', bubbleSortHead arr n = pure arr' ∧ Arr.Sorts 0 (n - 1) arr arr' := by
  rcases n with _ | n
  · rw [bubbleSortHead, headRounds, if_neg (by omega)]
    exact ⟨arr, rfl, .refl (by omega) arr⟩
  · obtain ⟨arr', hrun, hsize, hr, hs⟩ := headRounds_eq (Nat.zero_le n) hn
      (sortedTo_zero arr.data (n + 1))
    have hlast : ((n + 1 : ℕ) : ℤ) - 1 = n := by omega
    rw [hlast]
    refine ⟨arr', hrun, .of_rearranged (Nat.zero_le n) hsize hr fun k m _ hkm hm => ?_⟩
    rcases Nat.lt_or_ge k n with hlt | hge
    · exact hs k m hlt hkm (Nat.lt_succ_of_le hm)
    · rw [show k = m by omega]

end Head

/-! ### The greatest element to the end -/

section Tail

variable {arr : Arr α}

/-- **One turn of the inner loop** puts two neighbours in order. -/
theorem tailLoop_turn {c : ℤ} (hjn : (j : ℤ) < c - 1 - i) (hj : j + 1 < arr.size) : ∃ arr',
    tailLoop arr c i j = tailLoop arr' c i (j + 1 : ℕ) ∧ arr'.size = arr.size ∧
      Rearranged j (j + 1) arr.data arr'.data ∧ arr'.data j ≤ arr'.data (j + 1) := by
  have hcast : (j : ℤ) + 1 = (j + 1 : ℕ) := by push_cast; rfl
  have hj' : j < arr.size := by omega
  rw [tailLoop, if_pos hjn, Arr.getInt_eq hj', pure_bind, hcast, Arr.getInt_eq hj, pure_bind]
  by_cases hlt : arr.data j > arr.data (j + 1)
  · rw [if_pos hlt, Arr.exchange_eq hj hj', pure_bind]
    exact ⟨arr.swapped (j + 1) j, rfl, rfl, .swap (by omega) (by omega), by simpa using hlt.le⟩
  · rw [if_neg hlt]
    exact ⟨arr, rfl, rfl, .refl _ _ _, not_lt.mp hlt⟩

/-- **The inner loop** brings the greatest element to the end of those that are left, at `hi`. -/
theorem tailLoop_eq {c : ℤ} {hi : ℕ} (hc : c - 1 - i = hi) (hj : j ≤ hi) (hhi : hi < arr.size)
    (hmax : ∀ m, m ≤ j → arr.data m ≤ arr.data j) : ∃ arr',
    tailLoop arr c i j = pure arr' ∧ arr'.size = arr.size ∧ Rearranged 0 hi arr.data arr'.data ∧
      ∀ m, m ≤ hi → arr'.data m ≤ arr'.data hi := by
  induction hn : hi - j generalizing j arr with
  | zero =>
    obtain rfl : j = hi := by omega
    rw [tailLoop, if_neg (by omega)]
    exact ⟨arr, rfl, rfl, .refl _ _ _, hmax⟩
  | succ n ih =>
    have hjsize : j + 1 < arr.size := by omega
    obtain ⟨arr₁, hturn, hsize, hr, hle⟩ := tailLoop_turn (i := i) (c := c) (by omega) hjsize
    have hpair : ∀ m, j ≤ m → m ≤ j + 1 → arr₁.data m ≤ arr₁.data (j + 1) := by
      intro m hm hmj
      rcases (show m = j ∨ m = j + 1 by omega) with rfl | rfl
      · exact hle
      · exact le_rfl
    have hmax₁ : ∀ m, m ≤ j + 1 → arr₁.data m ≤ arr₁.data (j + 1) := by
      intro m hm
      rcases Nat.lt_or_ge m j with hlt | hge
      · -- the greatest element so far is one of the two neighbours
        have hlast : arr.data j ≤ arr₁.data (j + 1) :=
          hr.symm.all (P := (· ≤ arr₁.data (j + 1))) hpair le_rfl (Nat.le_succ j)
        rw [hr.outside (.inl hlt)]
        exact (hmax m hlt.le).trans hlast
      · exact hpair m hge hm
    obtain ⟨arr', hrun, hsize', hr', hmax'⟩ :=
      ih (by omega) (hsize ▸ hhi) hmax₁ (by omega)
    exact ⟨arr', hturn.trans hrun, hsize'.trans hsize,
      (hr.mono (Nat.zero_le j) (by omega)).trans hr', hmax'⟩

/-- **The rounds** sort what is left. -/
theorem tailRounds_eq (hi : i ≤ n) (hn : n < arr.size)
    (hs : SortedFrom arr.data (n + 1) (n + 1 - i)) :
    ∃ arr', tailRounds arr (n + 1 : ℕ) i = pure arr' ∧ arr'.size = arr.size ∧
      Rearranged 0 n arr.data arr'.data ∧ SortedFrom arr'.data (n + 1) 1 := by
  induction hm : n - i generalizing i arr with
  | zero =>
    obtain rfl : i = n := by omega
    rw [tailRounds, if_neg (by omega)]
    rw [Nat.add_sub_cancel_left] at hs
    exact ⟨arr, rfl, rfl, .refl _ _ _, hs⟩
  | succ m ih =>
    have hlast : ((n + 1 : ℕ) : ℤ) - 1 - i = (n - i : ℕ) := by omega
    obtain ⟨arr₁, hloop, hsize, hr, hmax⟩ := tailLoop_eq (j := 0) hlast (Nat.zero_le _)
      (lt_of_le_of_lt (Nat.sub_le n i) hn) fun m hm => by rw [Nat.le_zero.mp hm]
    rw [show n + 1 - i = n - i + 1 by omega] at hs
    have hs₁ := hs.extend hr hmax
    rw [show n - i = n + 1 - (i + 1) by omega] at hs₁
    obtain ⟨arr', hrun, hsize', hr', hs'⟩ := ih (by omega) (hsize ▸ hn) hs₁ (by omega)
    have hnext : (i : ℤ) + 1 = (i + 1 : ℕ) := by push_cast; rfl
    have hrun' : tailLoop arr (n + 1 : ℕ) i 0 = pure arr₁ := hloop
    rw [tailRounds, if_pos (by omega), hrun', pure_bind, hnext, hrun]
    exact ⟨arr', rfl, hsize'.trans hsize, (hr.mono le_rfl (Nat.sub_le n i)).trans hr', hs'⟩

/-- **`bubble_sort` sorts** the first `n` elements. -/
theorem bubbleSort_sorts (hn : n ≤ arr.size) :
    ∃ arr', bubbleSort arr n = pure arr' ∧ Arr.Sorts 0 (n - 1) arr arr' := by
  rcases n with _ | n
  · rw [bubbleSort, tailRounds, if_neg (by omega)]
    exact ⟨arr, rfl, .refl (by omega) arr⟩
  · obtain ⟨arr', hrun, hsize, hr, hs⟩ := tailRounds_eq (Nat.zero_le n) hn
      (sortedFrom_self arr.data (n + 1))
    have hlast : ((n + 1 : ℕ) : ℤ) - 1 = n := by omega
    rw [hlast]
    refine ⟨arr', hrun, .of_rearranged (Nat.zero_le n) hsize hr fun k m _ hkm hm => ?_⟩
    rcases Nat.eq_zero_or_pos m with rfl | hpos
    · rw [Nat.le_zero.mp hkm]
    · exact hs k m hpos hkm (Nat.lt_succ_of_le hm)

end Tail

/-- **The three versions leave behind the same array**, with the first `n` elements sorted. -/
theorem same_array {arr : Arr ℤ} {n : ℕ} (hn : n ≤ arr.size) : ∃ arr',
    bubbleSortHead arr n = pure arr' ∧ bubbleSortTail arr n = pure arr' ∧
      bubbleSort arr n = pure arr' ∧ Arr.Sorts 0 (n - 1) arr arr' := by
  obtain ⟨arr', hhead, hs⟩ := bubbleSortHead_sorts hn
  obtain ⟨arr'', htail, hs'⟩ := bubbleSort_sorts hn
  obtain rfl := hs.unique hs'
  exact ⟨arr', hhead, htail, htail, hs⟩

/-- The array of `main`. -/
theorem same_array_seven : ∃ arr',
    bubbleSortHead ⟨fun i => [0, -2, 4, 5, 6, 1, -10].getD i 0, 7⟩ 7 = pure arr' ∧
      bubbleSortTail ⟨fun i => [0, -2, 4, 5, 6, 1, -10].getD i 0, 7⟩ 7 = pure arr' ∧
      bubbleSort ⟨fun i => [0, -2, 4, 5, 6, 1, -10].getD i 0, 7⟩ 7 = pure arr' ∧
      Arr.Sorts 0 6 ⟨fun i => [0, -2, 4, 5, 6, 1, -10].getD i 0, 7⟩ arr' :=
  same_array (le_refl 7)

end BubbleSort

end Candcpp
