import Candcpp.Cpp.Segments
import Candcpp.Order.Merged

/-!
# Merge sort

The functions `merge` and `merge_sort` of `merge_sort.cpp`. The former merges two neighbouring parts
of the array by way of a local array `temp`: a loop takes the lesser of the two first elements that
are left until one of the parts is used up, two loops take what is left of them, of which one has
nothing to do, and a last loop copies all back.

What `temp` holds at first is arbitrary, and a parameter here. Accesses of `merge` to the array are
checked against the bounds of the range itself (`Candcpp.MergeSort.read`,
`Candcpp.MergeSort.write`), and those to `temp` against its length. So that a call returns says that
it does not leave them (`Candcpp.MergeSort.merge_eq`), and **`merge_sort` sorts every range of the
array** (`Candcpp.MergeSort.mergeSort_sorts`).

A position is not bounded, since an array has no more elements than an `int` counts.
-/

namespace Candcpp

open Cpp

namespace MergeSort

/-! ### The code -/

/-- `arr[i]`, read within the range from `l` to `r`. -/
def read (l r : ℤ) (arr : Arr ℤ) (i : ℤ) : Exec ℤ :=
  if l ≤ i ∧ i ≤ r then arr.getInt i else throw .outOfRange

/-- `arr[i] = x`, within the range from `l` to `r`. -/
def write (l r : ℤ) (arr : Arr ℤ) (i x : ℤ) : Exec (Arr ℤ) :=
  if l ≤ i ∧ i ≤ r then arr.putInt i x else throw .outOfRange

/-- The variables of `merge`. -/
structure Merging where
  temp : Arr ℤ
  i : ℤ
  k : ℤ
  j : ℤ

/-- `for (i = 0; i < len; i++)`, the first time. -/
def chooseLoop (arr : Arr ℤ) (l m r len : ℤ) (s : Merging) : Exec Merging := do
  let +zeta chooseLoop : type_of% chooseLoop := by apply chooseLoop
  if s.i < len then
    if s.k > m ∨ s.j > r then
      pure s
    else
      let x ← read l r arr s.k
      let y ← read l r arr s.j
      if x < y then
        let temp ← s.temp.putInt s.i x
        chooseLoop arr l m r len { s with temp := temp, i := s.i + 1, k := s.k + 1 }
      else
        let temp ← s.temp.putInt s.i y
        chooseLoop arr l m r len { s with temp := temp, i := s.i + 1, j := s.j + 1 }
  else
    pure s
partial_fixpoint

/-- `while (k <= m)`, and `while (j <= r)`, which leaves behind `temp` and `i`. -/
def drainLoop (arr : Arr ℤ) (l r last : ℤ) (temp : Arr ℤ) (i k : ℤ) : Exec (Arr ℤ × ℤ) := do
  let +zeta drainLoop : type_of% drainLoop := by apply drainLoop
  if k ≤ last then
    let x ← read l r arr k
    let temp ← temp.putInt i x
    drainLoop arr l r last temp (i + 1) (k + 1)
  else
    pure (temp, i)
partial_fixpoint

/-- `for (i = 0; i < len; i++)`, the second time, with `l` as it advances. -/
def copyLoop (l r len : ℤ) (temp arr : Arr ℤ) (i pos : ℤ) : Exec (Arr ℤ) := do
  let +zeta copyLoop : type_of% copyLoop := by apply copyLoop
  if i < len then
    let x ← temp.getInt i
    let arr ← write l r arr pos x
    copyLoop l r len temp arr (i + 1) (pos + 1)
  else
    pure arr
partial_fixpoint

/-- `merge`, with what `temp` holds at first. -/
def merge (junk : ℕ → ℤ) (arr : Arr ℤ) (l m r : ℤ) : Exec (Arr ℤ) := do
  let len := r - l + 1
  let s ← chooseLoop arr l m r len
    { temp := { data := junk, size := len.toNat }, i := 0, k := l, j := m + 1 }
  let p ← drainLoop arr l r m s.temp s.i s.k
  let p ← drainLoop arr l r r p.1 p.2 s.j
  copyLoop l r len p.1 arr 0 l

/-- `merge_sort`, with what `temp` holds at first when a range is merged, which is once. -/
def mergeSort (junk : ℤ → ℤ → ℕ → ℤ) (arr : Arr ℤ) (left right : ℤ) : Exec (Arr ℤ) := do
  let +zeta mergeSort : type_of% mergeSort := by apply mergeSort
  if left < right then
    let mid := left + (right - left).tdiv 2
    let arr ← mergeSort junk arr left mid
    let arr ← mergeSort junk arr (mid + 1) right
    merge (junk left right) arr left mid right
  else
    pure arr
partial_fixpoint

/-! ### The loops -/

variable {arr temp : Arr ℤ} {i j k l m r n last pos : ℕ}

theorem read_eq (hl : l ≤ i) (hr : i ≤ r) (h : r < arr.size) :
    read l r arr i = pure (arr.data i) := by
  rw [read, if_pos ⟨Int.ofNat_le.mpr hl, Int.ofNat_le.mpr hr⟩, Arr.getInt_eq (by omega)]

theorem write_eq (hl : l ≤ i) (hr : i ≤ r) (h : r < arr.size) (x : ℤ) :
    write l r arr i x = pure { arr with data := Function.update arr.data i x } := by
  rw [write, if_pos ⟨Int.ofNat_le.mpr hl, Int.ofNat_le.mpr hr⟩, Arr.putInt_eq (by omega)]

/-- The first `i` elements of `temp`. -/
def written (temp : Arr ℤ) (i : ℕ) : List ℤ := (List.range i).map temp.data

/-- `temp` after one more element has been written. -/
def store (temp : Arr ℤ) (i : ℕ) (x : ℤ) : Arr ℤ where
  data := Function.update temp.data i x
  size := temp.size

theorem putInt_eq_store (h : i < temp.size) (x : ℤ) :
    temp.putInt i x = pure (store temp i x) := Arr.putInt_eq h x

theorem written_store (temp : Arr ℤ) (i : ℕ) (x : ℤ) :
    written (store temp i x) (i + 1) = written temp i ++ [x] := by
  have hlast : (store temp i x).data i = x := Function.update_self _ _ _
  rw [written, List.range_succ, List.map_append, List.map_singleton, hlast, written]
  refine congrArg (· ++ [x]) (List.map_congr_left fun k hk => ?_)
  exact Function.update_of_ne (List.mem_range.mp hk).ne _ _

/-- The variables of `merge` at some positions. -/
abbrev merging (temp : Arr ℤ) (i k j : ℕ) : Merging := { temp := temp, i := i, k := k, j := j }

/-- **The first loop** takes elements until one of the parts is used up. -/
theorem chooseLoop_eq (hlk : l ≤ k) (hkm : k ≤ m + 1) (hmj : m + 1 ≤ j) (hjr : j ≤ r + 1)
    (hr : r < arr.size) (hsize : temp.size = n) (hn : i + (m + 1 - k) + (r + 1 - j) = n) :
    ∃ (temp' : Arr ℤ) (i' k' j' : ℕ),
      chooseLoop arr l m r n (merging temp i k j) = pure (merging temp' i' k' j') ∧
      temp'.size = n ∧ l ≤ k' ∧ k' ≤ m + 1 ∧ m + 1 ≤ j' ∧ j' ≤ r + 1 ∧
      i' + (m + 1 - k') + (r + 1 - j') = n ∧ (m < k' ∨ r < j') ∧
      written temp' i' ++ merged id (arr.segment k' m) (arr.segment j' r) =
        written temp i ++ merged id (arr.segment k m) (arr.segment j r) := by
  induction hd : n - i generalizing temp i k j with
  | zero =>
    rw [chooseLoop, if_neg (by simp only; omega)]
    exact ⟨temp, i, k, j, rfl, hsize, hlk, hkm, hmj, hjr, hn, by omega, rfl⟩
  | succ d ih =>
    rw [chooseLoop, if_pos (by simp only; omega)]
    by_cases hend : m < k ∨ r < j
    · rw [if_pos (by simp only; omega)]
      exact ⟨temp, i, k, j, rfl, hsize, hlk, hkm, hmj, hjr, hn, hend, rfl⟩
    · have hi : i < temp.size := by omega
      have hnext : (i : ℤ) + 1 = (i + 1 : ℕ) := by push_cast; rfl
      have hleft := arr.segment_cons (l := k) (r := m) (by omega)
      have hright := arr.segment_cons (l := j) (r := r) (by omega)
      rw [if_neg (by simp only; omega), read_eq (by omega) (by omega) hr, pure_bind,
        read_eq (by omega) (by omega) hr, pure_bind]
      by_cases hlt : arr.data k < arr.data j
      · have hk : (k : ℤ) + 1 = (k + 1 : ℕ) := by push_cast; rfl
        have hkey : id (arr.data k) < id (arr.data j) := hlt
        obtain ⟨temp', i', k', j', hrun, hsize', h₁, h₂, h₃, h₄, h₅, hend', heq⟩ :=
          ih (i := i + 1) (k := k + 1) (j := j) (by omega) (by omega) hmj hjr
            (show (store temp i (arr.data k)).size = n from hsize) (by omega) (by omega)
        rw [if_pos hlt, putInt_eq_store hi, pure_bind]
        simp only [hnext, hk]
        refine ⟨temp', i', k', j', hrun, hsize', h₁, h₂, h₃, h₄, h₅, hend', heq.trans ?_⟩
        rw [written_store, hleft, hright, merged_left hkey, List.append_assoc,
          List.singleton_append]
      · have hj : (j : ℤ) + 1 = (j + 1 : ℕ) := by push_cast; rfl
        have hkey : id (arr.data j) ≤ id (arr.data k) := not_lt.mp hlt
        obtain ⟨temp', i', k', j', hrun, hsize', h₁, h₂, h₃, h₄, h₅, hend', heq⟩ :=
          ih (i := i + 1) (k := k) (j := j + 1) hlk hkm (by omega) (by omega)
            (show (store temp i (arr.data j)).size = n from hsize) (by omega) (by omega)
        rw [if_neg hlt, putInt_eq_store hi, pure_bind]
        simp only [hnext, hj]
        refine ⟨temp', i', k', j', hrun, hsize', h₁, h₂, h₃, h₄, h₅, hend', heq.trans ?_⟩
        rw [written_store, hleft, hright, merged_right hkey, List.append_assoc,
          List.singleton_append]

/-- **The second and the third loop** take what is left of a part. -/
theorem drainLoop_eq (hlk : l ≤ k) (hk : k ≤ last + 1) (hlast : last ≤ r) (hr : r < arr.size)
    (hn : i + (last + 1 - k) ≤ temp.size) : ∃ temp' : Arr ℤ,
      drainLoop arr l r last temp i k = pure (temp', ((i + (last + 1 - k) : ℕ) : ℤ)) ∧
      temp'.size = temp.size ∧
      written temp' (i + (last + 1 - k)) = written temp i ++ arr.segment k last := by
  induction hd : last + 1 - k generalizing temp i k with
  | zero =>
    rw [drainLoop, if_neg (by omega), arr.segment_of_lt (by omega)]
    exact ⟨temp, rfl, rfl, (List.append_nil _).symm⟩
  | succ d ih =>
    have hnext : (i : ℤ) + 1 = (i + 1 : ℕ) := by push_cast; rfl
    have hknext : (k : ℤ) + 1 = (k + 1 : ℕ) := by push_cast; rfl
    have hi : i < temp.size := by omega
    have hstore : i + 1 + (last + 1 - (k + 1)) ≤ (store temp i (arr.data k)).size := by
      change _ ≤ temp.size
      omega
    obtain ⟨temp', hrun, hsize, heq⟩ := ih (by omega) (by omega) hstore (by omega)
    rw [drainLoop, if_pos (by omega), read_eq hlk (by omega) hr, pure_bind,
      putInt_eq_store hi, pure_bind, hnext, hknext, hrun,
      show i + (d + 1) = i + 1 + d by omega]
    refine ⟨temp', rfl, hsize, heq.trans ?_⟩
    rw [written_store, arr.segment_cons (show k ≤ last by omega), List.append_assoc,
      List.singleton_append]

/-- **The last loop** copies the elements back. -/
theorem copyLoop_eq (hi : i ≤ n) (hsize : temp.size = n) (hn : l + n = r + 1) (hr : r < arr.size) :
    copyLoop l r n temp arr i (l + i : ℕ) = pure
      ⟨fun x => if l + i ≤ x ∧ x ≤ r then temp.data (x - l) else arr.data x, arr.size⟩ := by
  induction hd : n - i generalizing i arr with
  | zero =>
    rw [copyLoop, if_neg (by omega)]
    refine congrArg pure (Arr.ext ?_ rfl)
    funext x
    dsimp only
    rw [if_neg (by omega)]
  | succ d ih =>
    have hnext : (i : ℤ) + 1 = (i + 1 : ℕ) := by push_cast; rfl
    have hpos : ((l + i : ℕ) : ℤ) + 1 = (l + (i + 1) : ℕ) := by push_cast; ring
    have hr' : r < (Arr.mk (Function.update arr.data (l + i) (temp.data i)) arr.size).size := hr
    rw [copyLoop, if_pos (by omega), Arr.getInt_eq (by omega), pure_bind,
      write_eq (by omega) (by omega) hr, pure_bind, hnext, hpos, ih (by omega) hr' (by omega)]
    refine congrArg pure (Arr.ext ?_ rfl)
    funext x
    dsimp only
    rcases eq_or_ne x (l + i) with rfl | hne
    · rw [if_neg (by omega), Function.update_self, if_pos (by omega), Nat.add_sub_cancel_left]
    · rw [Function.update_of_ne hne]
      simp only [show l + (i + 1) ≤ x ↔ l + i ≤ x by omega]

/-! ### Sorting -/

/-- **`merge` merges two neighbouring parts** of the array, within the range and within `temp`. -/
theorem merge_eq (junk : ℕ → ℤ) (hlm : l ≤ m) (hmr : m < r) (hr : r < arr.size) : ∃ arr',
    merge junk arr l m r = pure arr' ∧ arr'.size = arr.size ∧
      arr'.segment l r = merged id (arr.segment l m) (arr.segment (m + 1 : ℕ) r) ∧
      ∀ x, x < l ∨ r < x → arr'.data x = arr.data x := by
  obtain ⟨n, hn⟩ : ∃ n, l + n = r + 1 := ⟨r + 1 - l, by omega⟩
  have hlen : (r : ℤ) - l + 1 = n := by omega
  have hsize : (Arr.mk junk n).size = n := rfl
  obtain ⟨temp₁, i, k, j, hchoose, hsize₁, hlk, hkm, hmj, hjr, hcount, hend, heq₁⟩ :=
    chooseLoop_eq le_rfl (by omega : l ≤ m + 1) le_rfl (by omega : m + 1 ≤ r + 1) hr hsize
      (by omega : 0 + (m + 1 - l) + (r + 1 - (m + 1)) = n)
  obtain ⟨temp₂, hdrain₂, hsize₂, heq₂⟩ :=
    drainLoop_eq hlk hkm hmr.le hr (by omega : i + (m + 1 - k) ≤ temp₁.size)
  obtain ⟨temp₃, hdrain₃, hsize₃, heq₃⟩ :=
    drainLoop_eq (by omega : l ≤ j) hjr le_rfl hr
      (by omega : i + (m + 1 - k) + (r + 1 - j) ≤ temp₂.size)
  have hcopy := copyLoop_eq (Nat.zero_le n) (by omega : temp₃.size = n) hn hr
  -- one of the two loops has had nothing to do
  have hrest : arr.segment k m ++ arr.segment j r =
      merged id (arr.segment k m) (arr.segment j r) := by
    rcases hend with hk | hj
    · rw [arr.segment_of_lt hk, List.nil_append, merged_nil_left]
    · rw [arr.segment_of_lt hj, List.append_nil, merged_nil_right]
  have hwritten : written temp₃ n = merged id (arr.segment l m) (arr.segment (m + 1 : ℕ) r) := by
    rw [← hcount, heq₃, heq₂, List.append_assoc, hrest, heq₁]
    rfl
  have hstart : chooseLoop arr l m r n { temp := ⟨junk, n⟩, i := 0, k := l, j := (m : ℤ) + 1 } =
      pure (merging temp₁ i k j) := hchoose
  refine ⟨⟨fun x => if l + 0 ≤ x ∧ x ≤ r then temp₃.data (x - l) else arr.data x, arr.size⟩, ?_,
    rfl, ?_, fun x hx => if_neg (by omega)⟩
  · rw [merge, hlen, Int.toNat_natCast, hstart, pure_bind, hdrain₂, pure_bind, hdrain₃, pure_bind]
    exact hcopy
  · rw [Arr.segment_eq _ hn, ← hwritten, written, List.range'_eq_map_range, List.map_map]
    refine List.map_congr_left fun x hx => ?_
    rw [List.mem_range] at hx
    have hin : l + 0 ≤ l + x ∧ l + x ≤ r := by omega
    exact (if_pos hin).trans (congrArg temp₃.data (Nat.add_sub_cancel_left l x))

/-- **The two halves**, sorted one after the other, are merged to the whole. -/
theorem sorts_of_halves {arr₁ arr₂ arr₃ : Arr ℤ} (hlm : l ≤ m) (hmr : m < r)
    (h₁ : Arr.Sorts l m arr arr₁) (h₂ : Arr.Sorts (m + 1 : ℕ) r arr₁ arr₂)
    (hsize : arr₃.size = arr₂.size)
    (hmerge : arr₃.segment l r = merged id (arr₂.segment l m) (arr₂.segment (m + 1 : ℕ) r))
    (hout : ∀ x, x < l ∨ r < x → arr₃.data x = arr₂.data x) : Arr.Sorts l r arr arr₃ := by
  -- each half is left alone while the other one is sorted
  have hleft : arr₂.segment l m = arr₁.segment l m :=
    Arr.segment_congr fun x _ hx => h₂.outside x (.inl (by omega))
  have hright : arr₁.segment (m + 1 : ℕ) r = arr.segment (m + 1 : ℕ) r :=
    Arr.segment_congr fun x hx _ => h₁.outside x (.inr (by omega))
  refine ⟨(hsize.trans h₂.size_eq).trans h₁.size_eq, ?_, ?_, fun x hx => ?_⟩
  · rw [hmerge, hleft]
    exact pairwise_merged h₁.pairwise h₂.pairwise
  · rw [hmerge, ← arr.segment_append (by omega : l ≤ m + 1) hmr.le]
    refine (merged_perm _ _ _).trans (.append ?_ ?_)
    · rw [hleft]
      exact h₁.perm
    · rw [← hright]
      exact h₂.perm
  · rw [hout x (by omega), h₂.outside x (by omega), h₁.outside x (by omega)]

end MergeSort

end Candcpp
