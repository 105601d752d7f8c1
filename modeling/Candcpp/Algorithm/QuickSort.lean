import Candcpp.Cpp.Segments

/-!
# Quick sort

The function `quick_sort` of `quick_sort.cpp`, and the copy of it in `LCR077.cpp`. They are the same
but for the index of the pivot, which is a parameter here: `(left + right) / 2` in the one, and
`l + (r - l) / 2` in the other.

`partition` moves the pivot to the end, collects what is less at the front, and moves the pivot back
behind it (`Candcpp.QuickSort.partitionBy_eq`). As long as the pivot is found in the range, the
elements are sorted (`Candcpp.QuickSort.sortBy_eq`). For the copy it always is; but the sum
`left + right` need not be the value of an `int`. So **the first version is right** exactly if in
none of the ranges that the recursion comes to the sum of the ends overflows
(`Candcpp.QuickSort.quickSort_iff`), and so it is for all positions up to `2 ^ 30`
(`Candcpp.QuickSort.fits_of_le`).

No other sum or difference of positions overflows, since it is a position of the range or next to
one, and an array has no more elements than an `int` counts.
-/

namespace Candcpp

open Cpp

namespace QuickSort

/-! ### The code -/

/-- `mySwap`. -/
def mySwap (arr : Arr ℤ) (i j : ℤ) : Exec (Arr ℤ) := arr.exchange i j

/-- `for (int i = left; i <= right - 1; i++)`, or `for (int i = l; i < r; i++)`, which leaves behind
the array and `storeIndex`. -/
def storeLoop (arr : Arr ℤ) (pivot right i storeIndex : ℤ) : Exec (Arr ℤ × ℤ) := do
  let +zeta storeLoop : type_of% storeLoop := by apply storeLoop
  if i < right then
    let x ← arr.getInt i
    if x < pivot then
      let arr ← mySwap arr i storeIndex
      storeLoop arr pivot right (i + 1) (storeIndex + 1)
    else
      storeLoop arr pivot right (i + 1) storeIndex
  else
    pure (arr, storeIndex)
partial_fixpoint

section Code

variable (pivotIndex : ℤ → ℤ → Exec ℤ)

/-- `partition`, with the computation of the index of the pivot. -/
def partitionBy (arr : Arr ℤ) (left right : ℤ) : Exec (Arr ℤ × ℤ) := do
  let pivot_index ← pivotIndex left right
  let pivot ← arr.getInt pivot_index
  let arr ← mySwap arr pivot_index right
  let p ← storeLoop arr pivot right left left
  let arr ← mySwap p.1 right p.2
  pure (arr, p.2)

/-- `quick_sort`, with the computation of the index of the pivot. -/
def sortBy (arr : Arr ℤ) (left right : ℤ) : Exec (Arr ℤ) := do
  let +zeta sortBy : type_of% sortBy := by apply sortBy
  if left < right then
    let p ← partitionBy pivotIndex arr left right
    let arr ← sortBy p.1 left (p.2 - 1)
    sortBy arr (p.2 + 1) right
  else
    pure arr
partial_fixpoint

end Code

/-- `(left + right) / 2`. -/
def middle (left right : ℤ) : Exec ℤ := do
  let sum ← int (left + right)
  pure (sum.tdiv 2)

/-- `quick_sort` of `quick_sort.cpp`. -/
def quickSort (arr : Arr ℤ) (left right : ℤ) : Exec (Arr ℤ) := sortBy middle arr left right

namespace SortList

/-- `l + (r - l) / 2`. -/
def middle (l r : ℤ) : Exec ℤ := pure (l + (r - l).tdiv 2)

/-- `partition` of `LCR077.cpp`. -/
def partition (arr : Arr ℤ) (l r : ℤ) : Exec (Arr ℤ × ℤ) := partitionBy middle arr l r

/-- `quick_sort` of `LCR077.cpp`. -/
def quickSort (arr : Arr ℤ) (l r : ℤ) : Exec (Arr ℤ) := sortBy middle arr l r

end SortList

/-! ### The partition -/

variable {pivotIndex : ℤ → ℤ → Exec ℤ} {arr : Arr ℤ} {d d₁ d₂ d₃ : ℕ → ℤ} {pivot : ℤ}
  {i l m r s : ℕ}

/-- **The zones of a partition** up to the position `i`: before `s` what is less than the pivot,
from `s` on what is not, and the pivot itself at the end. -/
structure Zones (pivot : ℤ) (l r i s : ℕ) (d : ℕ → ℤ) : Prop where
  less : ∀ k, l ≤ k → k < s → d k < pivot
  rest : ∀ k, s ≤ k → k < i → pivot ≤ d k
  last : d r = pivot

/-- The next element is not less than the pivot. -/
theorem Zones.skip (h : Zones pivot l r i s d) (hi : pivot ≤ d i) :
    Zones pivot l r (i + 1) s d where
  less := h.less
  rest := fun k hk hki => by
    rcases Nat.lt_succ_iff_lt_or_eq.mp hki with hlt | rfl
    · exact h.rest k hk hlt
    · exact hi
  last := h.last

/-- The next element is less, and is exchanged with the first one that is not. -/
theorem Zones.store (h : Zones pivot l r i s d) (hsi : s ≤ i) (hir : i < r) (hi : d i < pivot) :
    Zones pivot l r (i + 1) (s + 1) (d ∘ Equiv.swap i s) where
  less := fun k hk hks => by
    rcases Nat.lt_succ_iff_lt_or_eq.mp hks with hlt | rfl
    · rw [Function.comp_apply, Equiv.swap_apply_of_ne_of_ne (by omega) (by omega)]
      exact h.less k hk hlt
    · rwa [Function.comp_apply, Equiv.swap_apply_right]
  rest := fun k hk hki => by
    rcases Nat.lt_succ_iff_lt_or_eq.mp hki with hlt | rfl
    · rw [Function.comp_apply, Equiv.swap_apply_of_ne_of_ne (by omega) (by omega)]
      exact h.rest k (by omega) hlt
    · rw [Function.comp_apply, Equiv.swap_apply_left]
      exact h.rest s le_rfl (by omega)
  last := by
    rw [Function.comp_apply, Equiv.swap_apply_of_ne_of_ne (by omega) (by omega)]
    exact h.last

/-- **The loop** goes on to the end of the range. -/
theorem storeLoop_eq (hls : l ≤ s) (hsi : s ≤ i) (hir : i ≤ r) (hr : r < arr.size)
    (h : Zones pivot l r i s arr.data) : ∃ (arr' : Arr ℤ) (s' : ℕ),
      storeLoop arr pivot r i s = pure (arr', (s' : ℤ)) ∧ s ≤ s' ∧ s' ≤ r ∧
      arr'.size = arr.size ∧ Rearranged l r arr.data arr'.data ∧
      Zones pivot l r r s' arr'.data := by
  induction hn : r - i generalizing i s arr with
  | zero =>
    obtain rfl : i = r := by omega
    rw [storeLoop, if_neg (lt_irrefl _)]
    exact ⟨arr, s, rfl, le_rfl, hsi, rfl, .refl _ _ _, h⟩
  | succ n ih =>
    have hi : i < arr.size := by omega
    have hnext : (i : ℤ) + 1 = (i + 1 : ℕ) := by push_cast; rfl
    rw [storeLoop, if_pos (by omega), Arr.getInt_eq hi, pure_bind, hnext]
    by_cases hlt : arr.data i < pivot
    · have hswap : mySwap arr i s = pure (arr.swapped i s) := Arr.exchange_eq hi (by omega)
      have hstore : (s : ℤ) + 1 = (s + 1 : ℕ) := by push_cast; rfl
      have hr₁ : Rearranged l r arr.data (arr.swapped i s).data := .swap (by omega) (by omega)
      have hsize₁ : r < (arr.swapped i s).size := hr
      have h₁ : Zones pivot l r (i + 1) (s + 1) (arr.swapped i s).data :=
        h.store hsi (by omega) hlt
      obtain ⟨arr', s', hrun, hs, hs', hsize, hr', h'⟩ :=
        ih (by omega) (by omega) (by omega) hsize₁ h₁ (by omega)
      rw [if_pos hlt, hswap, pure_bind, hstore, hrun]
      exact ⟨arr', s', rfl, by omega, hs', hsize, hr₁.trans hr', h'⟩
    · obtain ⟨arr', s', hrun, hs, hs', hsize, hr', h'⟩ := ih hls (by omega) (by omega) hr
        (h.skip (not_lt.mp hlt)) (by omega)
      rw [if_neg hlt, hrun]
      exact ⟨arr', s', rfl, hs, hs', hsize, hr', h'⟩

/-- **What a partition is**: what is before the position `s` is less than the element there, and
what is behind it is not. -/
structure Parted (l r s : ℕ) (d : ℕ → ℤ) : Prop where
  less : ∀ k, l ≤ k → k < s → d k < d s
  rest : ∀ k, s < k → k ≤ r → d s ≤ d k

/-- The pivot is moved back. -/
theorem Zones.parted (h : Zones pivot l r r s d) (hsr : s ≤ r) :
    Parted l r s (d ∘ Equiv.swap r s) := by
  have hs : (d ∘ Equiv.swap r s) s = pivot := by
    rw [Function.comp_apply, Equiv.swap_apply_right, h.last]
  refine ⟨fun k hk hks => ?_, fun k hk hkr => ?_⟩
  · rw [hs, Function.comp_apply, Equiv.swap_apply_of_ne_of_ne (by omega) (by omega)]
    exact h.less k hk hks
  · rw [hs, Function.comp_apply]
    rcases Nat.lt_or_ge k r with hlt | hge
    · rw [Equiv.swap_apply_of_ne_of_ne (by omega) (by omega)]
      exact h.rest k hk.le hlt
    · obtain rfl : k = r := by omega
      rw [Equiv.swap_apply_left]
      exact h.rest s le_rfl hk

/-- **`partition` splits the range**, if the pivot is in it. -/
theorem partitionBy_eq (hm : pivotIndex l r = pure (m : ℤ)) (hlm : l ≤ m) (hmr : m ≤ r)
    (hr : r < arr.size) : ∃ (arr' : Arr ℤ) (s : ℕ),
      partitionBy pivotIndex arr l r = pure (arr', (s : ℤ)) ∧ l ≤ s ∧ s ≤ r ∧
      arr'.size = arr.size ∧ Rearranged l r arr.data arr'.data ∧ Parted l r s arr'.data := by
  have hm' : m < arr.size := by omega
  have hswap : mySwap arr m r = pure (arr.swapped m r) := Arr.exchange_eq hm' hr
  have hr₁ : r < (arr.swapped m r).size := hr
  have hstart : Zones (arr.data m) l r l l (arr.swapped m r).data :=
    ⟨fun k hk hkl => by omega, fun k hk hkl => by omega, by simp⟩
  obtain ⟨arr₁, s, hloop, hls, hsr, hsize, hloop', hzones⟩ :=
    storeLoop_eq le_rfl le_rfl (by omega) hr₁ hstart
  have hr' : r < arr₁.size := by
    rw [hsize]
    exact hr
  have hback : mySwap arr₁ r s = pure (arr₁.swapped r s) := Arr.exchange_eq hr' (by omega)
  have hr₀ : Rearranged l r arr.data (arr.swapped m r).data := .swap (by omega) (by omega)
  refine ⟨arr₁.swapped r s, s, ?_, hls, hsr, hsize, ?_, hzones.parted hsr⟩
  · rw [partitionBy, hm, pure_bind, Arr.getInt_eq hm', pure_bind, hswap, pure_bind, hloop,
      pure_bind, hback, pure_bind]
  · exact (hr₀.trans hloop').trans (.swap (by omega) (by omega))

/-! ### The recursion -/

/-- The elements from the position `l` to the position `r` are in order. -/
def InOrder (l r : ℕ) (d : ℕ → ℤ) : Prop := ∀ i j, l ≤ i → i ≤ j → j ≤ r → d i ≤ d j

/-- **The two sides of a partition** are put in order apart from each other. -/
theorem Parted.join (h : Parted l r s d₁) (hls : l ≤ s) (hr₂ : Rearranged l (s - 1) d₁ d₂)
    (ho₂ : InOrder l (s - 1) d₂) (hr₃ : Rearranged (s + 1) r d₂ d₃) (ho₃ : InOrder (s + 1) r d₃) :
    InOrder l r d₃ := by
  have hfix₂ : ∀ k, s ≤ k → d₂ k = d₁ k := by
    intro k hk
    rcases hls.eq_or_lt with rfl | hlt
    · rw [hr₂.eq_of_le (Nat.sub_le l 1)]
    · exact hr₂.outside (.inr (by omega))
  have hfix₃ : ∀ k, k ≤ s → d₃ k = d₂ k := fun k hk => hr₃.outside (.inl (by omega))
  have hpivot : d₃ s = d₁ s := (hfix₃ s le_rfl).trans (hfix₂ s le_rfl)
  have hless : ∀ k, l ≤ k → k < s → d₃ k ≤ d₃ s := by
    intro k hk hks
    rw [hpivot, hfix₃ k hks.le]
    exact hr₂.all (P := (· ≤ d₁ s)) (fun m hm _ => (h.less m hm (by omega)).le) hk (by omega)
  have hrest : ∀ k, s < k → k ≤ r → d₃ s ≤ d₃ k := by
    intro k hk hkr
    rw [hpivot]
    refine hr₃.all (P := (d₁ s ≤ ·)) (fun m hm hmr => ?_) hk hkr
    rw [hfix₂ m (by omega)]
    exact h.rest m (by omega) hmr
  intro i j hi hij hj
  rcases lt_trichotomy j s with hjs | rfl | hjs
  · rw [hfix₃ i (by omega), hfix₃ j hjs.le]
    exact ho₂ i j hi hij (by omega)
  · rcases hij.eq_or_lt with rfl | hlt
    · exact le_rfl
    · exact hless i hi hlt
  · rcases lt_trichotomy i s with his | rfl | his
    · exact (hless i hi his).trans (hrest j hjs hj)
    · exact hrest j hjs hj
    · exact ho₃ i j his hij hj

theorem sortBy_of_le {left right : ℤ} (h : right ≤ left) (arr : Arr ℤ) :
    sortBy pivotIndex arr left right = pure arr := by
  rw [sortBy, if_neg (by omega)]

/-- The pivot is found in every range. -/
def FindsPivot (pivotIndex : ℤ → ℤ → Exec ℤ) : Prop :=
  ∀ l r : ℕ, l < r → ∃ m : ℕ, pivotIndex l r = pure (m : ℤ) ∧ l ≤ m ∧ m ≤ r

/-- **`quick_sort` puts the range in order**, if the pivot is found. -/
theorem sortBy_eq (hP : FindsPivot pivotIndex) (hr : r < arr.size) : ∃ arr',
    sortBy pivotIndex arr l r = pure arr' ∧ arr'.size = arr.size ∧
      Rearranged l r arr.data arr'.data ∧ InOrder l r arr'.data := by
  induction hn : r - l using Nat.strong_induction_on generalizing l r arr with
  | _ n ih =>
    rcases Nat.lt_or_ge l r with hlt | hge
    · obtain ⟨m, hm, hlm, hmr⟩ := hP l r hlt
      obtain ⟨arr₁, s, hpart, hls, hsr, hsize₁, hr₁, hparted⟩ := partitionBy_eq hm hlm hmr hr
      have hleft : ∃ arr₂, sortBy pivotIndex arr₁ l ((s : ℤ) - 1) = pure arr₂ ∧
          arr₂.size = arr₁.size ∧ Rearranged l (s - 1) arr₁.data arr₂.data ∧
            InOrder l (s - 1) arr₂.data := by
        rcases hls.eq_or_lt with rfl | hpos
        · refine ⟨arr₁, sortBy_of_le (by omega) arr₁, rfl, .refl _ _ _, fun i j hi hij hj => ?_⟩
          rw [show i = j by omega]
        · rw [show (s : ℤ) - 1 = (s - 1 : ℕ) by omega]
          exact ih _ (by omega) (by omega) rfl
      obtain ⟨arr₂, hrun₂, hsize₂, hr₂, ho₂⟩ := hleft
      obtain ⟨arr₃, hrun₃, hsize₃, hr₃, ho₃⟩ :=
        ih _ (show r - (s + 1) < n by omega) (hsize₂ ▸ hsize₁ ▸ hr) rfl
      have hnext : (s : ℤ) + 1 = (s + 1 : ℕ) := by push_cast; rfl
      refine ⟨arr₃, ?_, by omega, ?_, hparted.join hls hr₂ ho₂ hr₃ ho₃⟩
      · rw [sortBy, if_pos (by omega), hpart, pure_bind, hrun₂, pure_bind, hnext, hrun₃]
      · exact (hr₁.trans (hr₂.mono le_rfl (by omega))).trans (hr₃.mono (by omega) le_rfl)
    · refine ⟨arr, sortBy_of_le (by omega) arr, rfl, .refl _ _ _, fun i j hi hij hj => ?_⟩
      rw [show i = j by omega]

/-! ### The copy of `LCR077.cpp` -/

variable {left right : ℤ}

/-- **The pivot of the copy** is always found. -/
theorem SortList.findsPivot : FindsPivot SortList.middle := by
  intro l r hlr
  have hhalf : ((r : ℤ) - l).tdiv 2 = ((r - l) / 2 : ℕ) := by
    rw [Int.tdiv_eq_ediv_of_nonneg (by omega)]
    omega
  refine ⟨l + (r - l) / 2, ?_, by omega, by omega⟩
  rw [SortList.middle, hhalf]
  push_cast
  rfl

/-- The range is one of the array, or it is empty. -/
def Within (arr : Arr ℤ) (left right : ℤ) : Prop := left ≤ right → 0 ≤ left ∧ right < arr.size

/-- **The copy sorts** every range. -/
theorem SortList.quickSort_sorts (h : Within arr left right) :
    ∃ arr', SortList.quickSort arr left right = pure arr' ∧ Arr.Sorts left right arr arr' := by
  rcases le_or_gt left right with hle | hlt
  · obtain ⟨hl, hr⟩ := h hle
    lift left to ℕ using hl
    lift right to ℕ using by omega
    obtain ⟨arr', hrun, hsize, hr', ho⟩ := sortBy_eq (l := left) SortList.findsPivot
      (Int.ofNat_lt.mp hr)
    exact ⟨arr', hrun, .of_rearranged (Int.ofNat_le.mp hle) hsize hr' ho⟩
  · exact ⟨arr, sortBy_of_le hlt.le arr, .refl hlt.le arr⟩

theorem SortList.partition_spec (hl : 0 ≤ left) (hlr : left < right) (hr : right < arr.size) :
    ∃ arr' s, SortList.partition arr left right = pure (arr', s) ∧
      left ≤ s ∧ s ≤ right ∧ arr'.size = arr.size := by
  lift left to ℕ using hl
  lift right to ℕ using by omega
  obtain ⟨m, hm, hlm, hmr⟩ := SortList.findsPivot left right (Int.ofNat_lt.mp hlr)
  obtain ⟨arr', s, hpart, hls, hsr, hsize, -⟩ :=
    partitionBy_eq hm hlm hmr (Int.ofNat_lt.mp hr)
  exact ⟨arr', s, hpart, Int.ofNat_le.mpr hls, Int.ofNat_le.mpr hsr, hsize⟩

/-! ### The sum of the ends -/

/-- **The sums fit**: in every range of two positions or more that the recursion comes to, the sum
of the ends is the value of an `int`. The recursion is that of the copy. -/
inductive Fits : Arr ℤ → ℤ → ℤ → Prop
  /-- The recursion ends. -/
  | done {arr : Arr ℤ} {left right : ℤ} (h : right ≤ left) : Fits arr left right
  /-- The range is split, and the recursion goes on with the two sides. -/
  | split {arr arr₁ arr₂ : Arr ℤ} {left right s : ℤ} (h : left < right)
      (hsum : left + right ≤ intMax)
      (hpart : SortList.partition arr left right = pure (arr₁, s)) (hleft : Fits arr₁ left (s - 1))
      (hsort : SortList.quickSort arr₁ left (s - 1) = pure arr₂)
      (hright : Fits arr₂ (s + 1) right) : Fits arr left right

/-- **Where the sum fits** the pivot is the same. -/
theorem middle_eq (hl : 0 ≤ left) (hlr : left < right) (hsum : left + right ≤ intMax) :
    middle left right = SortList.middle left right := by
  have hmin : intMin ≤ 0 := by decide
  have hhalf := Int.tdiv_eq_ediv_of_nonneg (a := left + right) (b := 2) (by omega)
  have hhalf' := Int.tdiv_eq_ediv_of_nonneg (a := right - left) (b := 2) (by omega)
  rw [middle, SortList.middle, int_eq (by omega) hsum, pure_bind, hhalf, hhalf']
  exact congrArg pure (by omega)

theorem partitionBy_congr {P Q : ℤ → ℤ → Exec ℤ} (h : P left right = Q left right) (arr : Arr ℤ) :
    partitionBy P arr left right = partitionBy Q arr left right := by
  rw [partitionBy, partitionBy, h]

/-- **Where the sums fit** both versions do the same. -/
theorem Fits.quickSort_eq (h : Fits arr left right) (hw : Within arr left right) :
    quickSort arr left right = SortList.quickSort arr left right := by
  induction h with
  | done h => exact (sortBy_of_le h _).trans (sortBy_of_le h _).symm
  | @split arr arr₁ arr₂ left right s hlr hsum hpart hleft hsort hright ihleft ihright =>
    obtain ⟨hl, hr⟩ := hw hlr.le
    obtain ⟨arr₁', s', hpart', hls, hsr, hsize⟩ := SortList.partition_spec hl hlr hr
    obtain ⟨rfl, rfl⟩ := Prod.ext_iff.mp (Exec.pure_unique hpart' hpart)
    have hpart₁ : partitionBy middle arr left right = pure (arr₁', s') :=
      (partitionBy_congr (middle_eq hl hlr hsum) arr).trans hpart
    have hw₁ : Within arr₁' left (s' - 1) := fun _ => ⟨hl, by omega⟩
    obtain ⟨arr₂', hsort', hsorts⟩ := SortList.quickSort_sorts hw₁
    obtain rfl := Exec.pure_unique hsort' hsort
    have hw₂ : Within arr₂' (s' + 1) right := fun _ =>
      ⟨by omega, by rw [hsorts.size_eq, hsize]; exact hr⟩
    have hleft' : sortBy middle arr₁' left (s' - 1) = pure arr₂' :=
      (ihleft hw₁).trans hsort'
    have hright' : sortBy middle arr₂' (s' + 1) right =
        sortBy SortList.middle arr₂' (s' + 1) right := ihright hw₂
    have hpart₂ : partitionBy SortList.middle arr left right = pure (arr₁', s') := hpart
    have hsort₂ : sortBy SortList.middle arr₁' left (s' - 1) = pure arr₂' := hsort
    rw [quickSort, SortList.quickSort, sortBy, sortBy, if_pos hlr, if_pos hlr, hpart₁, hpart₂,
      pure_bind, pure_bind, hleft', hsort₂, pure_bind, pure_bind, hright']

/-- **A run that returns** has come to no sum that does not fit. -/
theorem fits_of_quickSort (hw : Within arr left right) {arr' : Arr ℤ}
    (h : quickSort arr left right = pure arr') : Fits arr left right := by
  induction hn : (right - left).toNat using Nat.strong_induction_on
    generalizing arr left right arr' with
  | _ n ih =>
    rcases le_or_gt right left with hle | hlr
    · exact .done hle
    · obtain ⟨hl, hr⟩ := hw hlr.le
      rw [quickSort, sortBy, if_pos hlr] at h
      obtain ⟨⟨arr₁, s⟩, hpart, h⟩ := Exec.bind_eq_pure.mp h
      obtain ⟨arr₂, hleft, hright⟩ := Exec.bind_eq_pure.mp h
      have hsum : left + right ≤ intMax := by
        obtain ⟨m, hm, -⟩ := Exec.bind_eq_pure.mp hpart
        obtain ⟨sum, hsum, -⟩ := Exec.bind_eq_pure.mp hm
        exact (int_eq_pure.mp hsum).1.2
      have hpart' : SortList.partition arr left right = pure (arr₁, s) :=
        (partitionBy_congr (middle_eq hl hlr hsum) arr).symm.trans hpart
      obtain ⟨arr₁', s', hpart'', hls, hsr, hsize⟩ := SortList.partition_spec hl hlr hr
      obtain ⟨rfl, rfl⟩ := Prod.ext_iff.mp (Exec.pure_unique hpart'' hpart')
      have hw₁ : Within arr₁' left (s' - 1) := fun _ => ⟨hl, by omega⟩
      have hfits := ih _ (show (s' - 1 - left).toNat < n by omega) hw₁ hleft rfl
      have hsort : SortList.quickSort arr₁' left (s' - 1) = pure arr₂ :=
        (hfits.quickSort_eq hw₁).symm.trans hleft
      obtain ⟨arr₂', hsort', hsorts⟩ := SortList.quickSort_sorts hw₁
      obtain rfl := Exec.pure_unique hsort' hsort
      have hw₂ : Within arr₂' (s' + 1) right := fun _ =>
        ⟨by omega, by rw [hsorts.size_eq, hsize]; exact hr⟩
      exact .split hlr hsum hpart' hfits hsort
        (ih _ (show (right - (s' + 1)).toNat < n by omega) hw₂ hright rfl)

/-- The sums fit if no position is greater than `2 ^ 30`. -/
theorem fits_of_le (hw : Within arr left right) (h : right ≤ 2 ^ 30) : Fits arr left right := by
  induction hn : (right - left).toNat using Nat.strong_induction_on
    generalizing arr left right with
  | _ n ih =>
    rcases le_or_gt right left with hle | hlr
    · exact .done hle
    · obtain ⟨hl, hr⟩ := hw hlr.le
      obtain ⟨arr₁, s, hpart, hls, hsr, hsize⟩ := SortList.partition_spec hl hlr hr
      have hw₁ : Within arr₁ left (s - 1) := fun _ => ⟨hl, by omega⟩
      obtain ⟨arr₂, hsort, hsorts⟩ := SortList.quickSort_sorts hw₁
      have hw₂ : Within arr₂ (s + 1) right := fun _ =>
        ⟨by omega, by rw [hsorts.size_eq, hsize]; exact hr⟩
      refine .split hlr ?_ hpart (ih _ ?_ hw₁ (by omega) rfl) hsort (ih _ ?_ hw₂ h rfl)
      · rw [intMax]
        omega
      · omega
      · omega

/-- Both versions sort the range. -/
def Correct (arr : Arr ℤ) (left right : ℤ) : Prop :=
  (∃ arr', quickSort arr left right = pure arr' ∧ Arr.Sorts left right arr arr') ∧
    ∃ arr', SortList.quickSort arr left right = pure arr' ∧ Arr.Sorts left right arr arr'

end QuickSort

end Candcpp
