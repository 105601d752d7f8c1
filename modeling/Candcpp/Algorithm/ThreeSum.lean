import Candcpp.Cpp.Exec
import Candcpp.Order.Chosen
import Candcpp.Order.Pairs

/-!
# Three numbers with sum zero

The two versions of `threeSum` of `15.cpp`, which list the triples of values of a vector whose sum
is zero, each of them once. The first version looks at all triples of positions, sorts their values,
and looks whether they have been listed. The second one sorts the vector. For each first value it
looks for pairs with the rest of the sum from both ends (`Candcpp.ThreeSum.twoSum_eq`), and it
leaves out positions with a value that it has already looked at.

A triple is three elements of the vector in increasing order (`Candcpp.ThreeSum.IsTriple`). To sort
them afterwards, or the vector before, gives the same triples. So **both versions list the same
triples** (`Candcpp.ThreeSum.same_triples`), if not in the same order.

The arithmetic is exact. A position is not bounded, since a vector has no more elements than an
`int` counts.
-/

namespace Candcpp

open Cpp

namespace ThreeSum

/-! ### The code -/

/-- `(*v)[0] == t[0] && (*v)[1] == t[1] && (*v)[2] == t[2]`. -/
def equalAt (v t : List ℤ) : Exec Bool := do
  let x ← nth v 0
  let y ← nth t 0
  if x = y then
    let x ← nth v 1
    let y ← nth t 1
    if x = y then
      let x ← nth v 2
      let y ← nth t 2
      pure (decide (x = y))
    else
      pure false
  else
    pure false

/-- `while (v != ans.end())`: whether the loop is left before the end. -/
def findLoop (t : List ℤ) : List (List ℤ) → Exec Bool
  | [] => pure false
  | v :: rest => do
    if ← equalAt v t then
      pure true
    else
      findLoop t rest

/-- What the first version does with three positions. -/
def visit (nums : List ℤ) (i j k : ℤ) (ans : List (List ℤ)) : Exec (List (List ℤ)) := do
  let x ← nth nums i
  let y ← nth nums j
  let z ← nth nums k
  if x + y + z = 0 then
    let t := [x, y, z].insertionSort (· ≤ ·)
    if ← findLoop t ans then
      pure ans
    else
      pure (ans ++ [t])
  else
    pure ans

/-- `for (int k = j + 1; k < n; ++k)`, which leaves behind `ans`. -/
def kLoop (nums : List ℤ) (n i j k : ℤ) (ans : List (List ℤ)) : Exec (List (List ℤ)) := do
  let +zeta kLoop : type_of% kLoop := by apply kLoop
  if k < n then
    let ans ← visit nums i j k ans
    kLoop nums n i j (k + 1) ans
  else
    pure ans
partial_fixpoint

/-- `for (int j = i + 1; j < n; ++j)`, which leaves behind `ans`. -/
def jLoop (nums : List ℤ) (n i j : ℤ) (ans : List (List ℤ)) : Exec (List (List ℤ)) := do
  let +zeta jLoop : type_of% jLoop := by apply jLoop
  if j < n then
    let ans ← kLoop nums n i j (j + 1) ans
    jLoop nums n i (j + 1) ans
  else
    pure ans
partial_fixpoint

/-- `for (int i = 0; i < n; ++i)` of the first version, which leaves behind `ans`. -/
def iLoop (nums : List ℤ) (n i : ℤ) (ans : List (List ℤ)) : Exec (List (List ℤ)) := do
  let +zeta iLoop : type_of% iLoop := by apply iLoop
  if i < n then
    let ans ← jLoop nums n i (i + 1) ans
    iLoop nums n (i + 1) ans
  else
    pure ans
partial_fixpoint

/-- The first `threeSum`. -/
def threeSumBf (nums : List ℤ) : Exec (List (List ℤ)) := iLoop nums nums.length 0 []

/-- `while (l < r && nums[l] == nums[l + 1])`, which leaves behind `l`. -/
def skipLeft (nums : List ℤ) (l r : ℤ) : Exec ℤ := do
  let +zeta skipLeft : type_of% skipLeft := by apply skipLeft
  if l < r then
    let x ← nth nums l
    let y ← nth nums (l + 1)
    if x = y then
      skipLeft nums (l + 1) r
    else
      pure l
  else
    pure l
partial_fixpoint

/-- `while (l < r && nums[r] == nums[r - 1])`, which leaves behind `r`. -/
def skipRight (nums : List ℤ) (l r : ℤ) : Exec ℤ := do
  let +zeta skipRight : type_of% skipRight := by apply skipRight
  if l < r then
    let x ← nth nums r
    let y ← nth nums (r - 1)
    if x = y then
      skipRight nums l (r - 1)
    else
      pure r
  else
    pure r
partial_fixpoint

/-- `while (l < r)`, which leaves behind `ans`. -/
def pairLoop (nums : List ℤ) (l r target first : ℤ) (ans : List (List ℤ)) :
    Exec (List (List ℤ)) := do
  let +zeta pairLoop : type_of% pairLoop := by apply pairLoop
  if l < r then
    let x ← nth nums l
    let y ← nth nums r
    if x + y = target then
      let l ← skipLeft nums l r
      let r ← skipRight nums (l + 1) r
      pairLoop nums (l + 1) (r - 1) target first (ans ++ [[first, x, y]])
    else if x + y < target then
      pairLoop nums (l + 1) r target first ans
    else
      pairLoop nums l (r - 1) target first ans
  else
    pure ans
partial_fixpoint

/-- `twoSum`. -/
def twoSum (nums : List ℤ) (l r target first : ℤ) : Exec (List (List ℤ)) :=
  pairLoop nums l r target first []

/-- `i > 0 && nums[i] == nums[i - 1]`. -/
def repeated (nums : List ℤ) (i : ℤ) : Exec Bool := do
  if i > 0 then
    let x ← nth nums i
    let y ← nth nums (i - 1)
    pure (decide (x = y))
  else
    pure false

/-- `for (int i = 0; i < n; ++i)` of the second version, which leaves behind `ans`. -/
def firstLoop (nums : List ℤ) (n i : ℤ) (ans : List (List ℤ)) : Exec (List (List ℤ)) := do
  let +zeta firstLoop : type_of% firstLoop := by apply firstLoop
  if i < n then
    if ← repeated nums i then
      firstLoop nums n (i + 1) ans
    else
      let x ← nth nums i
      let t ← twoSum nums (i + 1) (n - 1) (-x) x
      firstLoop nums n (i + 1) (ans ++ t)
  else
    pure ans
partial_fixpoint

/-- The second `threeSum`, which leaves behind the vector of its caller. -/
def threeSum (nums : List ℤ) : Exec (List (List ℤ) × List ℤ) := do
  let nums := nums.insertionSort (· ≤ ·)
  let ans ← firstLoop nums nums.length 0 []
  pure (ans, nums)

/-! ### The triples -/

/-- **A triple**: three elements at different positions, in increasing order, with sum zero. -/
def IsTriple (nums t : List ℤ) : Prop :=
  ∃ a b c, t = [a, b, c] ∧ a ≤ b ∧ b ≤ c ∧ a + b + c = 0 ∧ [a, b, c].Subperm nums

/-- **A list** of all elements with a property, each of them once. -/
structure Lists {α : Type} (ans : List α) (P : α → Prop) : Prop where
  nodup : ans.Nodup
  mem_iff : ∀ t, t ∈ ans ↔ P t

variable {nums t v : List ℤ} {ans : List (List ℤ)} {P Q : List ℤ → Prop} {i j k l r n : ℕ}
  {x y z target first : ℤ}

theorem Lists.congr (h : Lists ans P) (hPQ : ∀ t, P t ↔ Q t) : Lists ans Q :=
  ⟨h.nodup, fun t => (h.mem_iff t).trans (hPQ t)⟩

theorem isTriple_iff : IsTriple nums t ↔ Chosen 3 nums t ∧ t.sum = 0 := by
  constructor
  · rintro ⟨a, b, c, rfl, hab, hbc, hsum, hsub⟩
    refine ⟨⟨rfl, ?_, hsub⟩, ?_⟩
    · simp only [List.pairwise_cons, List.mem_cons, List.not_mem_nil, or_false, forall_eq_or_imp,
        forall_eq, List.Pairwise.nil, and_true, false_implies, implies_true]
      exact ⟨⟨hab, hab.trans hbc⟩, hbc⟩
    · rw [List.sum_cons, List.sum_cons, List.sum_singleton, ← hsum, add_assoc]
  · rintro ⟨⟨hlen, hpair, hsub⟩, hsum⟩
    obtain ⟨a, b, c, rfl⟩ := List.length_eq_three.mp hlen
    rw [List.sum_cons, List.sum_cons, List.sum_singleton, ← add_assoc] at hsum
    have hab := (List.pairwise_cons.mp hpair).1 b List.mem_cons_self
    have hbc := (List.pairwise_cons.mp hpair.of_cons).1 c List.mem_cons_self
    exact ⟨a, b, c, rfl, hab, hbc, hsum, hsub⟩

/-- The values, as a sequence. -/
def vals (nums : List ℤ) (i : ℕ) : ℤ := nums.getD i 0

theorem nth_vals (hi : i < nums.length) : nth nums i = pure (vals nums i) := nth_getD hi 0

theorem getElem?_eq_vals : nums[i]? = some x ↔ i < nums.length ∧ vals nums i = x := by
  rw [List.getElem?_eq_some_iff, vals]
  constructor
  · rintro ⟨hi, hx⟩
    exact ⟨hi, by rw [List.getD_eq_getElem _ _ hi, hx]⟩
  · rintro ⟨hi, hx⟩
    exact ⟨hi, by rw [← List.getD_eq_getElem _ 0 hi, hx]⟩

/-! ### All positions -/

/-- The triple of the values at three positions. -/
def tripleAt (nums : List ℤ) (i j k : ℕ) : List ℤ :=
  [vals nums i, vals nums j, vals nums k].insertionSort (· ≤ ·)

/-- The sum of the values at three positions is zero. -/
def ZeroAt (nums : List ℤ) (i j k : ℕ) : Prop := vals nums i + vals nums j + vals nums k = 0

/-- The triples at the positions before `i`, `j` and `k`, in the order of the loops. -/
def Before (nums : List ℤ) (i j k : ℕ) (t : List ℤ) : Prop :=
  ∃ i' j' k', i' < j' ∧ j' < k' ∧ k' < nums.length ∧
    (i' < i ∨ i' = i ∧ (j' < j ∨ j' = j ∧ k' < k)) ∧ ZeroAt nums i' j' k' ∧
      t = tripleAt nums i' j' k'

theorem length_tripleAt (nums : List ℤ) (i j k : ℕ) : (tripleAt nums i j k).length = 3 :=
  List.length_insertionSort _ _

/-- The comparison of two triples. -/
theorem equalAt_eq (hv : v.length = 3) (ht : t.length = 3) :
    equalAt v t = pure (decide (v = t)) := by
  obtain ⟨a, b, c, rfl⟩ := List.length_eq_three.mp hv
  obtain ⟨a', b', c', rfl⟩ := List.length_eq_three.mp ht
  have h0 : ∀ a b c : ℤ, nth [a, b, c] 0 = pure a := fun _ _ _ => rfl
  have h1 : ∀ a b c : ℤ, nth [a, b, c] 1 = pure b := fun _ _ _ => rfl
  have h2 : ∀ a b c : ℤ, nth [a, b, c] 2 = pure c := fun _ _ _ => rfl
  simp only [equalAt, h0, h1, h2, pure_bind, List.cons.injEq, and_true]
  split_ifs with ha hb
  · simp only [ha, hb, true_and]
  · simp only [hb, false_and, and_false, decide_false]
  · simp only [ha, false_and, decide_false]

/-- **The search** for a triple among those that have been listed. -/
theorem findLoop_eq (hans : ∀ v ∈ ans, v.length = 3) (ht : t.length = 3) :
    findLoop t ans = pure (decide (t ∈ ans)) := by
  induction ans with
  | nil => rfl
  | cons v ans ih =>
    rw [findLoop, equalAt_eq (hans v List.mem_cons_self) ht, pure_bind,
      ih fun w hw => hans w (List.mem_cons_of_mem v hw)]
    by_cases hvt : v = t
    · rw [decide_eq_true hvt, if_pos rfl, decide_eq_true (hvt ▸ List.mem_cons_self)]
    · rw [decide_eq_false hvt, if_neg Bool.false_ne_true]
      simp only [List.mem_cons, Ne.symm hvt, false_or]

/-- **Three positions more.** -/
theorem visit_eq (hij : i < j) (hjk : j < k) (hk : k < nums.length)
    (h : Lists ans (Before nums i j k)) :
    ∃ ans', visit nums i j k ans = pure ans' ∧ Lists ans' (Before nums i j (k + 1)) := by
  have hnext : ∀ t, Before nums i j (k + 1) t ↔
      Before nums i j k t ∨ ZeroAt nums i j k ∧ t = tripleAt nums i j k := by
    intro t
    constructor
    · rintro ⟨i', j', k', hij', hjk', hk', hle, hzero⟩
      by_cases heq : i' = i ∧ j' = j ∧ k' = k
      · obtain ⟨rfl, rfl, rfl⟩ := heq
        exact .inr hzero
      · exact .inl ⟨i', j', k', hij', hjk', hk', by omega, hzero⟩
    · rintro (⟨i', j', k', hij', hjk', hk', hle, hzero⟩ | hzero)
      · exact ⟨i', j', k', hij', hjk', hk', by omega, hzero⟩
      · exact ⟨i, j, k, hij, hjk, hk, by omega, hzero⟩
  have hlen : ∀ v ∈ ans, v.length = 3 := by
    intro v hv
    obtain ⟨i', j', k', -, -, -, -, -, rfl⟩ := (h.mem_iff v).mp hv
    exact length_tripleAt nums i' j' k'
  have hfind := findLoop_eq hlen (length_tripleAt nums i j k)
  rw [tripleAt] at hfind
  rw [visit, nth_vals (by omega), pure_bind, nth_vals (by omega), pure_bind, nth_vals hk, pure_bind]
  by_cases hzero : ZeroAt nums i j k
  · rw [if_pos (by exact hzero)]
    dsimp only
    rw [hfind, pure_bind, ← tripleAt]
    by_cases hmem : tripleAt nums i j k ∈ ans
    · rw [decide_eq_true hmem, if_pos rfl]
      refine ⟨ans, rfl, h.congr fun t => ?_⟩
      rw [hnext, or_iff_left_of_imp]
      rintro ⟨-, rfl⟩
      exact (h.mem_iff _).mp hmem
    · rw [decide_eq_false hmem, if_neg Bool.false_ne_true]
      refine ⟨_, rfl, List.nodup_append.mpr ⟨h.nodup, List.nodup_singleton _, ?_⟩, fun t => ?_⟩
      · rintro t ht _ ht' rfl
        rw [List.mem_singleton] at ht'
        exact hmem (ht' ▸ ht)
      · rw [List.mem_append, List.mem_singleton, h.mem_iff, hnext, and_iff_right hzero]
  · rw [if_neg (by exact hzero)]
    refine ⟨ans, rfl, h.congr fun t => ?_⟩
    rw [hnext, or_iff_left_of_imp]
    exact fun ht => absurd ht.1 hzero

/-- The same positions come before. -/
theorem before_congr {i₁ j₁ k₁ : ℕ} (h : ∀ i' j' k', i' < j' → j' < k' → k' < nums.length →
    ((i' < i ∨ i' = i ∧ (j' < j ∨ j' = j ∧ k' < k)) ↔
      (i' < i₁ ∨ i' = i₁ ∧ (j' < j₁ ∨ j' = j₁ ∧ k' < k₁)))) :
    Before nums i j k t ↔ Before nums i₁ j₁ k₁ t := by
  constructor
  · rintro ⟨i', j', k', hij, hjk, hk, hlt, hzero⟩
    exact ⟨i', j', k', hij, hjk, hk, (h i' j' k' hij hjk hk).mp hlt, hzero⟩
  · rintro ⟨i', j', k', hij, hjk, hk, hlt, hzero⟩
    exact ⟨i', j', k', hij, hjk, hk, (h i' j' k' hij hjk hk).mpr hlt, hzero⟩

/-- **The innermost loop** goes through the third positions. -/
theorem kLoop_eq (hij : i < j) (hjk : j < k) (hk : k ≤ nums.length)
    (h : Lists ans (Before nums i j k)) : ∃ ans', kLoop nums nums.length i j k ans = pure ans' ∧
      Lists ans' (Before nums i (j + 1) (j + 2)) := by
  obtain ⟨d, hd⟩ := Nat.exists_eq_add_of_le hk
  induction d generalizing k ans with
  | zero =>
    obtain rfl : nums.length = k := hd
    refine ⟨ans, by rw [kLoop, if_neg (lt_irrefl _)], h.congr fun t => before_congr ?_⟩
    intro i' j' k' hij' hjk' hk'
    omega
  | succ d ih =>
    obtain ⟨ans', hrun, h'⟩ := visit_eq hij hjk (by omega) h
    rw [kLoop, if_pos (by omega), hrun, pure_bind, ← Nat.cast_succ]
    exact ih (by omega) (by omega) h' (by omega)

/-- **The second loop** goes through the second positions. -/
theorem jLoop_eq (hij : i < j) (hj : j ≤ nums.length) (h : Lists ans (Before nums i j (j + 1))) :
    ∃ ans', jLoop nums nums.length i j ans = pure ans' ∧
      Lists ans' (Before nums (i + 1) (i + 2) (i + 3)) := by
  obtain ⟨d, hd⟩ := Nat.exists_eq_add_of_le hj
  induction d generalizing j ans with
  | zero =>
    obtain rfl : nums.length = j := hd
    refine ⟨ans, by rw [jLoop, if_neg (lt_irrefl _)], h.congr fun t => before_congr ?_⟩
    intro i' j' k' hij' hjk' hk'
    omega
  | succ d ih =>
    obtain ⟨ans', hrun, h'⟩ := kLoop_eq hij (Nat.lt_succ_self j) (by omega) h
    rw [Nat.cast_succ] at hrun
    rw [jLoop, if_pos (by omega), hrun, pure_bind, ← Nat.cast_succ]
    exact ih (by omega) (by omega) h' (by omega)

/-- **The outer loop** goes through the first positions. -/
theorem iLoop_eq (hi : i ≤ nums.length) (h : Lists ans (Before nums i (i + 1) (i + 2))) :
    ∃ ans', iLoop nums nums.length i ans = pure ans' ∧
      Lists ans' (Before nums nums.length 0 0) := by
  obtain ⟨d, hd⟩ := Nat.exists_eq_add_of_le hi
  induction d generalizing i ans with
  | zero =>
    obtain rfl : nums.length = i := hd
    refine ⟨ans, by rw [iLoop, if_neg (lt_irrefl _)], h.congr fun t => before_congr ?_⟩
    intro i' j' k' hij' hjk' hk'
    omega
  | succ d ih =>
    obtain ⟨ans', hrun, h'⟩ := jLoop_eq (Nat.lt_succ_self i) (by omega) h
    rw [Nat.cast_succ] at hrun
    rw [iLoop, if_pos (by omega), hrun, pure_bind, ← Nat.cast_succ]
    exact ih (by omega) h' (by omega)

/-- Three elements of the vector, in their order, are at three positions. -/
theorem exists_positions {m : List ℤ} (hlen : m.length = 3) (hsub : m.Sublist nums) :
    ∃ i j k, i < j ∧ j < k ∧ k < nums.length ∧ m = [vals nums i, vals nums j, vals nums k] := by
  obtain ⟨x, y, z, rfl⟩ := List.length_eq_three.mp hlen
  obtain ⟨i, j, k, hij, hjk, hi, hj, hk⟩ := triple_sublist_iff.mp hsub
  obtain ⟨-, rfl⟩ := getElem?_eq_vals.mp hi
  obtain ⟨-, rfl⟩ := getElem?_eq_vals.mp hj
  obtain ⟨hkn, rfl⟩ := getElem?_eq_vals.mp hk
  exact ⟨i, j, k, hij, hjk, hkn, rfl⟩

/-- The triples at all positions are the triples. -/
theorem before_all : Before nums nums.length 0 0 t ↔ IsTriple nums t := by
  rw [isTriple_iff, chosen_iff_sorted]
  constructor
  · rintro ⟨i, j, k, hij, hjk, hk, -, hzero, rfl⟩
    have hx : ∀ {l}, l < nums.length → nums[l]? = some (vals nums l) := fun hl =>
      getElem?_eq_vals.mpr ⟨hl, rfl⟩
    refine ⟨⟨_, rfl, triple_sublist_iff.mpr ⟨i, j, k, hij, hjk, hx (by omega), hx (by omega),
      hx hk⟩, rfl⟩, ?_⟩
    rw [tripleAt, (List.perm_insertionSort _ _).sum_eq, List.sum_cons, List.sum_cons,
      List.sum_singleton, ← add_assoc]
    exact hzero
  · rintro ⟨⟨m, hlen, hsub, rfl⟩, hsum⟩
    obtain ⟨i, j, k, hij, hjk, hkn, rfl⟩ := exists_positions hlen hsub
    rw [(List.perm_insertionSort _ _).sum_eq, List.sum_cons, List.sum_cons, List.sum_singleton,
      ← add_assoc] at hsum
    exact ⟨i, j, k, hij, hjk, hkn, .inl (by omega), hsum, rfl⟩

/-- **The first version** lists the triples. -/
theorem threeSumBf_eq (nums : List ℤ) :
    ∃ ans, threeSumBf nums = pure ans ∧ Lists ans (IsTriple nums) := by
  have hnone : ∀ t, ¬ Before nums 0 1 2 t := by
    rintro t ⟨i', j', k', hij, hjk, hk, hlt, -⟩
    omega
  have hstart : Lists [] (Before nums 0 1 2) :=
    ⟨List.nodup_nil, fun t => iff_of_false List.not_mem_nil (hnone t)⟩
  obtain ⟨ans, hrun, h⟩ := iLoop_eq (Nat.zero_le _) hstart
  exact ⟨ans, hrun, h.congr fun t => before_all⟩

/-! ### From both ends -/

/-- **Equal elements are skipped** from the left. -/
theorem skipLeft_eq (hlr : l ≤ r) (hr : r < nums.length) : ∃ l' : ℕ,
    skipLeft nums l r = pure (l' : ℤ) ∧ l ≤ l' ∧ l' ≤ r ∧
      (∀ i, l ≤ i → i < l' + 1 → vals nums i = vals nums l) ∧
      (l' < r → vals nums (l' + 1) ≠ vals nums l) := by
  obtain ⟨d, hd⟩ := Nat.exists_eq_add_of_le hlr
  induction d generalizing l with
  | zero =>
    obtain rfl : r = l := hd
    refine ⟨r, by rw [skipLeft, if_neg (lt_irrefl _)], le_rfl, le_rfl, fun i hi hi' => ?_,
      fun h => absurd h (lt_irrefl r)⟩
    rw [show i = r by omega]
  | succ d ih =>
    rw [skipLeft, if_pos (by omega), nth_vals (by omega), pure_bind, ← Nat.cast_succ,
      nth_vals (by omega), pure_bind]
    by_cases heq : vals nums l = vals nums (l + 1)
    · obtain ⟨l', hrun, hle, hle', hall, hnext⟩ := ih (l := l + 1) (by omega) (by omega)
      rw [if_pos heq]
      refine ⟨l', hrun, by omega, hle', fun i hi hi' => ?_, heq ▸ hnext⟩
      rcases Nat.eq_or_lt_of_le hi with rfl | hlt
      · rfl
      · rw [hall i hlt hi', heq]
    · rw [if_neg heq]
      refine ⟨l, rfl, le_rfl, hlr, fun i hi hi' => ?_, fun _ h => heq h.symm⟩
      rw [show i = l by omega]

/-- **Equal elements are skipped** from the right. -/
theorem skipRight_eq (hl : 1 ≤ l) (hr : r < nums.length) (hpos : 1 ≤ r) : ∃ r' : ℕ,
    skipRight nums l r = pure ((r' : ℤ) + 1) ∧ r' < r ∧
      ∀ j, r' < j → j ≤ r → vals nums j = vals nums r := by
  induction r with
  | zero => exact absurd hpos (Nat.not_succ_le_zero 0)
  | succ r ih =>
    have hlast : ∀ j, r < j → j ≤ r + 1 → vals nums j = vals nums (r + 1) := fun j hj hj' => by
      rw [show j = r + 1 by omega]
    by_cases hlt : l < r + 1
    · have hprev : ((r + 1 : ℕ) : ℤ) - 1 = r := by omega
      rw [skipRight, if_pos (by omega), nth_vals hr, pure_bind, hprev, nth_vals (by omega),
        pure_bind]
      by_cases heq : vals nums (r + 1) = vals nums r
      · obtain ⟨r', hrun, hlt', hall⟩ := ih (by omega) (by omega)
        rw [if_pos heq]
        refine ⟨r', hrun, by omega, fun j hj hj' => ?_⟩
        rcases Nat.eq_or_lt_of_le hj' with rfl | hjr
        · rfl
        · rw [hall j hj (by omega), heq]
      · rw [if_neg heq, Nat.cast_succ]
        exact ⟨r, rfl, Nat.lt_succ_self r, hlast⟩
    · rw [skipRight, if_neg (by omega), Nat.cast_succ]
      exact ⟨r, rfl, Nat.lt_succ_self r, hlast⟩

/-- The triples with a first value, where the others are within a range and have a sum. -/
def With (nums : List ℤ) (l r : ℕ) (target first : ℤ) (t : List ℤ) : Prop :=
  ∃ x y, t = [first, x, y] ∧ Sums (vals nums) target l r x y

/-- **The loop** lists the pairs of values with a sum. -/
theorem pairLoop_eq (hd : Increasing (vals nums) nums.length) (hr : r < nums.length)
    (ans : List (List ℤ)) : ∃ out, pairLoop nums l r target first ans = pure (ans ++ out) ∧
      Lists out (With nums l r target first) := by
  induction hn : r - l using Nat.strong_induction_on generalizing l r ans with
  | h n ih =>
    by_cases hlr : l < r
    · rw [pairLoop, if_pos (by omega), nth_vals (by omega), pure_bind, nth_vals hr, pure_bind]
      rcases lt_trichotomy (vals nums l + vals nums r) target with hlt | heq | hgt
      · obtain ⟨out, hrun, h⟩ := ih _ (by omega) (l := l + 1) hr ans rfl
        rw [if_neg hlt.ne, if_pos hlt, ← Nat.cast_succ]
        refine ⟨out, hrun, h.congr fun t => ?_⟩
        simp only [With, sums_left hd hr hlt]
      · obtain ⟨l', hleft, hle, hle', hall, hnext⟩ := skipLeft_eq hlr.le hr
        obtain ⟨r', hright, hlt, hall'⟩ :=
          skipRight_eq (l := l' + 1) (Nat.succ_pos l') hr (by omega)
        obtain ⟨out, hrun, h⟩ := ih _ (by omega) (l := l' + 1) (r := r') (by omega)
          (ans ++ [[first, vals nums l, vals nums r]]) rfl
        have hsums := fun x y => sums_found (x := x) (y := y) hlr heq (hle.trans (Nat.le_succ l'))
          hlt.le hall hall'
        rw [if_pos heq, hleft, pure_bind, ← Nat.cast_succ, hright, pure_bind, add_sub_cancel_right,
          hrun, List.append_assoc]
        refine ⟨_, rfl, List.nodup_cons.mpr ⟨fun hmem => ?_, h.nodup⟩, fun t => ?_⟩
        · obtain ⟨x, y, ht, hxy⟩ := (h.mem_iff _).mp hmem
          have hne : x ≠ vals nums l' := hxy.ne_left hd (by omega) fun hl' => by
            rw [hall l' hle (Nat.lt_succ_self l')]
            exact hnext (by omega)
          simp only [List.cons.injEq, true_and, and_true] at ht
          exact hne (by rw [← ht.1, hall l' hle (Nat.lt_succ_self l')])
        · rw [List.singleton_append, List.mem_cons, h.mem_iff]
          simp only [With, hsums]
          constructor
          · rintro (rfl | ⟨x, y, ht, hxy⟩)
            · exact ⟨_, _, rfl, .inl ⟨rfl, rfl⟩⟩
            · exact ⟨x, y, ht, .inr hxy⟩
          · rintro ⟨x, y, ht, ⟨rfl, rfl⟩ | hxy⟩
            · exact .inl ht
            · exact .inr ⟨x, y, ht, hxy⟩
      · obtain ⟨r, rfl⟩ : ∃ q, r = q + 1 := ⟨r - 1, by omega⟩
        obtain ⟨out, hrun, h⟩ := ih _ (by omega) (l := l) (r := r) (by omega) ans rfl
        rw [if_neg hgt.ne', if_neg (not_lt.mpr hgt.le), Nat.cast_succ, add_sub_cancel_right]
        refine ⟨out, hrun, h.congr fun t => ?_⟩
        simp only [With, sums_right hd hr hgt]
    · refine ⟨[], by rw [pairLoop, if_neg (by omega), List.append_nil], List.nodup_nil, fun t => ?_⟩
      refine iff_of_false List.not_mem_nil ?_
      rintro ⟨x, y, -, hxy⟩
      exact not_sums (not_lt.mp hlr) hxy

/-- **`twoSum`** lists the pairs of values with a sum, behind the first value. -/
theorem twoSum_eq (hd : Increasing (vals nums) nums.length) (hr : r < nums.length)
    (target first : ℤ) : ∃ out, twoSum nums l r target first = pure out ∧
      Lists out (With nums l r target first) :=
  pairLoop_eq hd hr []

/-! ### First values -/

/-- The triples with the first position below `i`. -/
def Starting (nums : List ℤ) (i : ℕ) (t : List ℤ) : Prop :=
  ∃ i' < i, With nums (i' + 1) (nums.length - 1) (-vals nums i') (vals nums i') t

theorem starting_succ : Starting nums (i + 1) t ↔ Starting nums i t ∨
    With nums (i + 1) (nums.length - 1) (-vals nums i) (vals nums i) t := by
  constructor
  · rintro ⟨i', hi', ht⟩
    rcases Nat.lt_succ_iff_lt_or_eq.mp hi' with hlt | rfl
    · exact .inl ⟨i', hlt, ht⟩
    · exact .inr ht
  · rintro (⟨i', hi', ht⟩ | ht)
    · exact ⟨i', hi'.trans (Nat.lt_succ_self i), ht⟩
    · exact ⟨i, Nat.lt_succ_self i, ht⟩

/-- The test for a value that has been looked at. -/
theorem repeated_eq (hi : i < nums.length) :
    repeated nums i = pure (decide (0 < i ∧ vals nums i = vals nums (i - 1))) := by
  rw [repeated]
  rcases Nat.eq_zero_or_pos i with rfl | hpos
  · rw [if_neg (by omega), decide_eq_false (by omega)]
  · rw [if_pos (by omega), nth_vals hi, pure_bind, ← Nat.cast_one, ← Nat.cast_sub hpos,
      nth_vals (by omega), pure_bind]
    simp only [hpos, true_and]

/-- **The loop** goes through the first positions, but for those with the same value as the one
before. -/
theorem firstLoop_eq (hd : Increasing (vals nums) nums.length) (hi : i ≤ nums.length)
    (h : Lists ans (Starting nums i)) : ∃ ans', firstLoop nums nums.length i ans = pure ans' ∧
      Lists ans' (Starting nums nums.length) := by
  obtain ⟨d, hn⟩ := Nat.exists_eq_add_of_le hi
  induction d generalizing i ans with
  | zero =>
    obtain rfl : nums.length = i := hn
    exact ⟨ans, by rw [firstLoop, if_neg (lt_irrefl _)], h⟩
  | succ d ih =>
    rw [firstLoop, if_pos (by omega), repeated_eq (by omega), pure_bind, ← Nat.cast_succ]
    by_cases hrep : 0 < i ∧ vals nums i = vals nums (i - 1)
    · rw [decide_eq_true hrep, if_pos rfl]
      refine ih (by omega) (h.congr fun t => ?_) (by omega)
      rw [starting_succ, or_iff_left_of_imp]
      -- the position before has the same value, and more positions behind it
      rintro ⟨x, y, ht, hxy⟩
      rw [hrep.2] at ht hxy
      exact ⟨i - 1, by omega, x, y, ht, hxy.mono (by omega) le_rfl⟩
    · have hlast : (nums.length : ℤ) - 1 = (nums.length - 1 : ℕ) := by omega
      obtain ⟨out, hrun, hout⟩ := twoSum_eq (l := i + 1) (r := nums.length - 1) hd (by omega)
        (-vals nums i) (vals nums i)
      rw [decide_eq_false hrep, if_neg Bool.false_ne_true, nth_vals (by omega), pure_bind, hlast,
        hrun, pure_bind]
      refine ih (by omega) ⟨List.nodup_append.mpr ⟨h.nodup, hout.nodup, ?_⟩, fun t => ?_⟩ (by omega)
      · rintro t ht _ ht' rfl
        obtain ⟨i', hi', x, y, rfl, -⟩ := (h.mem_iff t).mp ht
        obtain ⟨x', y', heq, -⟩ := (hout.mem_iff _).mp ht'
        have hval : vals nums i' = vals nums i := (List.cons.inj heq).1
        have hle := hd i' (i - 1) (by omega) (by omega)
        have hle' := hd (i - 1) i (by omega) (by omega)
        exact hrep ⟨by omega, by omega⟩
      · rw [List.mem_append, h.mem_iff, hout.mem_iff, starting_succ]

/-- **Where the vector has been sorted**, the triples with all first positions are the triples. -/
theorem starting_all {l : List ℤ} (hs : nums = l.insertionSort (· ≤ ·)) :
    Starting nums nums.length t ↔ IsTriple l t := by
  rw [isTriple_iff, chosen_iff_sublist, ← hs]
  constructor
  · rintro ⟨i, -, x, y, rfl, j, k, ⟨hij, hjk, hk⟩, rfl, rfl, hsum⟩
    have hx : ∀ {l}, l < nums.length → nums[l]? = some (vals nums l) := fun hl =>
      getElem?_eq_vals.mpr ⟨hl, rfl⟩
    refine ⟨⟨rfl, triple_sublist_iff.mpr ⟨i, j, k, hij, hjk, hx (by omega), hx (by omega),
      hx (by omega)⟩⟩, ?_⟩
    rw [List.sum_cons, List.sum_cons, List.sum_singleton, hsum, add_neg_cancel]
  · rintro ⟨⟨hlen, hsub⟩, hsum⟩
    obtain ⟨i, j, k, hij, hjk, hkn, rfl⟩ := exists_positions hlen hsub
    rw [List.sum_cons, List.sum_cons, List.sum_singleton] at hsum
    exact ⟨i, by omega, _, _, rfl, j, k, ⟨hij, hjk, by omega⟩, rfl, rfl, by omega⟩

/-- The values of a vector that has been sorted. -/
theorem increasing_sorted (nums : List ℤ) :
    Increasing (vals (nums.insertionSort (· ≤ ·))) (nums.insertionSort (· ≤ ·)).length := by
  intro i j hij hj
  rcases Nat.eq_or_lt_of_le hij with rfl | hlt
  · exact le_rfl
  · have hpair := List.pairwise_iff_getElem.mp (List.pairwise_insertionSort (· ≤ ·) nums)
    rw [vals, vals, List.getD_eq_getElem _ _ hj, List.getD_eq_getElem _ _ (hlt.trans hj)]
    exact hpair i j (hlt.trans hj) hj hlt

/-- **The second version** lists the triples, and sorts the vector. -/
theorem threeSum_eq (nums : List ℤ) : ∃ ans,
    threeSum nums = pure (ans, nums.insertionSort (· ≤ ·)) ∧ Lists ans (IsTriple nums) := by
  have hstart : Lists [] (Starting (nums.insertionSort (· ≤ ·)) 0) :=
    ⟨List.nodup_nil, fun t => iff_of_false List.not_mem_nil fun ⟨i, hi, _⟩ =>
      absurd hi (Nat.not_lt_zero i)⟩
  obtain ⟨ans, hrun, h⟩ := firstLoop_eq (increasing_sorted nums) (Nat.zero_le _) hstart
  refine ⟨ans, ?_, h.congr fun t => starting_all rfl⟩
  rw [Nat.cast_zero] at hrun
  rw [threeSum, hrun, pure_bind]

/-- **Both versions list the triples**, each of them once. -/
theorem same_triples (nums : List ℤ) : ∃ ans ans', threeSumBf nums = pure ans ∧
    threeSum nums = pure (ans', nums.insertionSort (· ≤ ·)) ∧ ans.Perm ans' ∧
    ans.Nodup ∧ ∀ t, t ∈ ans ↔ IsTriple nums t := by
  obtain ⟨ans, hrun, h⟩ := threeSumBf_eq nums
  obtain ⟨ans', hrun', h'⟩ := threeSum_eq nums
  refine ⟨ans, ans', hrun, hrun', ?_, h.nodup, h.mem_iff⟩
  refine (List.perm_ext_iff_of_nodup h.nodup h'.nodup).mpr fun t => ?_
  rw [h.mem_iff, h'.mem_iff]

end ThreeSum

end Candcpp
