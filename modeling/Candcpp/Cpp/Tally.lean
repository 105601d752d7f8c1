import Candcpp.Cpp.Exec

/-!
# Arrays that count characters

A string is a list of `char`s, which are signed (`Int8`), and a program that counts them has an
array in which a character, or its distance from another one, is an index. The array has the values
of a function of the index (`Candcpp.Cpp.Arr.table`), and to add to an element of it is to change
the function at one place (`Candcpp.Cpp.bump_table`).

How often each index occurs in a string is the function `Candcpp.Cpp.tally`, and a character that
comes in at the end of a string, or goes out at its start, is one change of it
(`Candcpp.Cpp.tally_concat`, `Candcpp.Cpp.tally_cons`).

Programs that do not count sort the string. Two strings are equal when they have been sorted exactly
if they have the same characters (`Candcpp.Cpp.sortString_eq_iff`).
-/

namespace Candcpp

namespace Cpp

/-- The value of a character literal. -/
def code (c : Char) : ℤ := c.toNat

/-- `a[i] += d`, which is also `a[i]++` or `a[i]--`. -/
def bump (a : Arr ℤ) (i d : ℤ) : Exec (Arr ℤ) := do
  let x ← a.getInt i
  a.putInt i (x + d)

/-- The array of the values of a function. -/
def Arr.table (n : ℕ) (f : ℤ → ℤ) : Arr ℤ where
  data := fun i => f i
  size := n

/-- `sort(w.begin(), w.end())`. -/
def sortString (w : List Int8) : List Int8 := w.insertionSort (· ≤ ·)

/-- How often an index is that of a character of the string. -/
def tally (w : List Int8) (x : ℤ) : ℤ := (w.map Int8.toInt).count x

variable {n : ℕ} {f g : ℤ → ℤ} {i : ℤ} {w : List Int8}

@[simp] theorem code_lower_a : code 'a' = 97 := rfl

@[simp] theorem code_lower_z : code 'z' = 122 := rfl

@[simp] theorem code_upper_a : code 'A' = 65 := rfl

@[simp] theorem code_upper_z : code 'Z' = 90 := rfl

theorem Arr.fill_eq_table (n : ℕ) (x : ℤ) : Arr.fill n x = Arr.table n fun _ => x := rfl

theorem getInt_table (h0 : 0 ≤ i) (hi : i < n) (f : ℤ → ℤ) :
    (Arr.table n f).getInt i = pure (f i) := by
  obtain ⟨m, rfl⟩ := Int.eq_ofNat_of_zero_le h0
  exact Arr.getInt_eq (show m < (Arr.table n f).size from Int.ofNat_lt.mp hi)

/-- **An addition to an element** changes the function at its index. -/
theorem bump_table (h0 : 0 ≤ i) (hi : i < n) (f : ℤ → ℤ) (d : ℤ) :
    bump (Arr.table n f) i d = pure (Arr.table n fun x => f x + if x = i then d else 0) := by
  rw [bump, getInt_table h0 hi, pure_bind]
  obtain ⟨m, rfl⟩ := Int.eq_ofNat_of_zero_le h0
  have hm : m < (Arr.table n f).size := Int.ofNat_lt.mp hi
  rw [Arr.putInt_eq hm]
  refine congrArg pure (Arr.ext ?_ rfl)
  funext k
  dsimp only [Arr.table]
  simp only [Function.update_apply, Nat.cast_inj]
  split_ifs with hk
  · rw [hk]
  · rw [add_zero]

/-- Two arrays are equal if the functions are at their indices. -/
theorem toList_table_eq_iff : (Arr.table n f).toList = (Arr.table n g).toList ↔
    ∀ k : ℕ, k < n → f k = g k := by
  show (List.range n).map (fun k : ℕ => f k) = (List.range n).map (fun k : ℕ => g k) ↔ _
  rw [List.map_inj_left]
  simp only [List.mem_range]

@[simp] theorem tally_nil (x : ℤ) : tally [] x = 0 := rfl

theorem tally_nonneg (w : List Int8) (x : ℤ) : 0 ≤ tally w x := Int.natCast_nonneg _

/-- At the index of a character it is how often the character occurs. -/
theorem tally_toInt (w : List Int8) (c : Int8) : tally w c.toInt = w.count c := by
  rw [tally, List.count_map_of_injective _ _ fun a b h => Int8.toInt_inj.mp h]

/-- **A character comes in** at the end. -/
theorem tally_concat (w : List Int8) (c : Int8) (x : ℤ) :
    tally (w ++ [c]) x = tally w x + if x = c.toInt then 1 else 0 := by
  rw [tally, tally, List.map_append, List.count_append, List.map_singleton, List.count_singleton]
  by_cases hx : x = c.toInt
  · simp [hx]
  · simp [hx, Ne.symm hx]

/-- **A character goes out** at the start. -/
theorem tally_cons (w : List Int8) (c : Int8) (x : ℤ) :
    tally w x = tally (c :: w) x + if x = c.toInt then -1 else 0 := by
  rw [tally, tally, List.map_cons, List.count_cons]
  by_cases hx : x = c.toInt
  · simp [hx]
  · simp [hx, Ne.symm hx]

/-- Two strings with the same characters are counted in the same way. -/
theorem tally_perm {w' : List Int8} (h : w.Perm w') (x : ℤ) : tally w x = tally w' x := by
  rw [tally, tally, (h.map Int8.toInt).count_eq]

/-- What is not the index of a character does not occur. -/
theorem tally_eq_zero {x : ℤ} (h : ∀ c ∈ w, c.toInt ≠ x) : tally w x = 0 := by
  rw [tally, List.count_eq_zero.mpr, Nat.cast_zero]
  rintro hmem
  obtain ⟨c, hc, rfl⟩ := List.mem_map.mp hmem
  exact h c hc rfl

/-- **Sorting** leaves nothing but the characters of a string. -/
theorem sortString_eq_iff {w' : List Int8} : sortString w = sortString w' ↔ w.Perm w' := by
  have hperm : ∀ v : List Int8, (sortString v).Perm v := List.perm_insertionSort (· ≤ ·)
  have hsorted : ∀ v : List Int8, (sortString v).Pairwise (· ≤ ·) :=
    List.pairwise_insertionSort (· ≤ ·)
  constructor
  · intro h
    exact (hperm w).symm.trans (h ▸ hperm w')
  · intro h
    have hsame := (hperm w).trans (h.trans (hperm w').symm)
    exact hsame.eq_of_pairwise (fun _ _ _ _ => Int8.le_antisymm) (hsorted w) (hsorted w')

end Cpp

end Candcpp
