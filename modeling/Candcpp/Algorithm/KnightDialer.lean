import Candcpp.Cpp.Grid
import Candcpp.Cpp.Loop
import Candcpp.Order.Walks

/-!
# The dialer

The two versions of `935.cpp`, which count the numbers that a knight can dial: the walks over the
keys of a telephone. `knightDialer` is recursive and keeps what it has computed in an array, where 0
stands for what has not been computed; `dp` fills a table row by row.

The array begins with zeros, and **the first version returns the number of the walks**
(`Candcpp.KnightDialer.knightDialer_eq`). The table is not initialised but for its first row, and
the others are added to what it holds; and the test whether a row is the last one is made behind the
first step, so that the loop runs beyond the end of the table if there is none. As long as the table
holds remainders, the second version returns the number of the walks and what its contents have
contributed (`Candcpp.KnightDialer.dp_eq`). So **the versions agree exactly if there is a step and
the contributions cancel** (`Candcpp.KnightDialer.agree_iff_surplus`), and for no length do they
agree whatever the table holds (`Candcpp.KnightDialer.dialers_agree_iff`).
-/

namespace Candcpp

open Cpp

namespace KnightDialer

/-! ### The code -/

/-- `MOD`. -/
def MOD : ℤ := 1000000007

/-- `K`, the keys that the knight comes to from each key. -/
def K : List (List ℕ) :=
  [[4, 6], [6, 8], [7, 9], [4, 8], [0, 3, 9], [], [0, 1, 7], [2, 6], [1, 3], [2, 4]]

/-- `(a + b) % MOD`, of values of type `int`. -/
def addMod (a b : ℤ) : Exec ℤ := do
  let sum ← int (a + b)
  pure (sum.tmod MOD)

/-- `dfs`, with the array `cntarr`. -/
def dfs (cntarr : Grid ℤ) (n : ℤ) (x : ℕ) : Exec (ℤ × Grid ℤ) := do
  let +zeta dfs : type_of% dfs := by apply dfs
  let res ← cntarr.get n x
  if res ≠ 0 then
    pure (res, cntarr)
  else if n = 0 then
    pure (1, cntarr)
  else
    let ks ← nth K x
    let cntarr ← ks.foldlM (fun cntarr k => do
      let r ← dfs cntarr (n - 1) k
      let res ← r.2.get n x
      let sum ← addMod r.1 res
      r.2.put n x sum) cntarr
    let res ← cntarr.get n x
    pure (res, cntarr)
partial_fixpoint

/-- `knightDialer`, with the array `cntarr`. -/
def knightDialer (cntarr : Grid ℤ) (n : ℤ) : Exec (ℤ × Grid ℤ) := do
  let r ← (List.range 10).foldlM (fun (r : ℤ × Grid ℤ) x => do
    let d ← dfs r.2 (n - 1) x
    pure (r.1 + d.1, d.2)) (0, cntarr)
  pure (r.1.tmod MOD, r.2)

/-- `for (int k : K[x])` of `dp`, in the row `n`. -/
def cell (n : ℤ) (dp : Grid ℤ) (x : ℕ) : Exec (Grid ℤ) := do
  let ks ← nth K x
  ks.foldlM (fun dp (k : ℕ) => do
    let a ← dp.get n x
    let b ← dp.get (n - 1) k
    let sum ← addMod a b
    dp.put n x sum) dp

/-- `for (int n = 1; n <= 5000; n++)` of `dp`, from `n` on: it leaves behind `res`. -/
def rowLoop (m : ℤ) (dp : Grid ℤ) (n : ℤ) : Exec ℤ := do
  let +zeta rowLoop : type_of% rowLoop := by apply rowLoop
  if n ≤ 5000 then
    let dp ← (List.range 10).foldlM (cell n) dp
    if n = m then
      (List.range 10).foldlM (fun res (j : ℕ) => do
        let d ← dp.get n j
        addMod res d) 0
    else
      rowLoop m dp (n + 1)
  else
    pure 0
partial_fixpoint

/-- `dp`, with what the table holds at first. -/
def dp (contents : ℕ → ℕ → ℤ) (m : ℤ) : Exec ℤ := do
  let dp ← (List.range 10).foldlM (fun dp (j : ℕ) => dp.put 0 j 1)
    { data := contents, rows := 5000, cols := 10 }
  rowLoop m dp 1

/-! ### The walks -/

/-- The keys that the knight comes to from a key. -/
def moves (x : ℕ) : List ℕ := K.getD x []

variable {contents : ℕ → ℕ → ℤ} {table table' : Grid ℤ} {a b : ℤ} {i j k m n x : ℕ}

theorem nth_K (hx : x < 10) : nth K x = pure (moves x) := nth_getD hx []

theorem moves_lt (hx : x < 10) (hk : k ∈ moves x) : k < 10 := by
  have hall : ∀ x < 10, ∀ k ∈ moves x, k < 10 := by decide
  exact hall x hx k hk

/-- **The knight can go back.** -/
theorem reversible_moves : Reversible moves (Finset.range 10) := by
  intro f w
  simp only [Finset.sum_range_succ, Finset.sum_range_zero, moves, K, List.getD_cons_zero,
    List.getD_cons_succ, List.map_cons, List.map_nil, List.sum_cons, List.sum_nil]
  ring

/-- **The number of the walks** from a key, as a remainder. -/
def count (n x : ℕ) : ℤ := (walks moves n x : ℤ) % MOD

/-- A remainder. -/
def Remainder (a : ℤ) : Prop := 0 ≤ a ∧ a < MOD

theorem remainder_emod (a : ℤ) : Remainder (a % MOD) :=
  ⟨Int.emod_nonneg _ (by decide), Int.emod_lt_of_pos _ (by decide)⟩

theorem Remainder.emod_eq (h : Remainder a) : a % MOD = a := Int.emod_eq_of_lt h.1 h.2

/-- The sum of two remainders is a value of an `int`. -/
theorem addMod_eq (ha : Remainder a) (hb : Remainder b) : addMod a b = pure ((a + b) % MOD) := by
  have hle : a + b ≤ intMax := by
    have hMOD : 2 * MOD ≤ intMax := by decide
    linarith [ha.2, hb.2]
  have hge : intMin ≤ a + b := (by decide : intMin ≤ 0).trans (add_nonneg ha.1 hb.1)
  rw [addMod, int_eq hge hle, pure_bind, Int.tmod_eq_emod_of_nonneg (add_nonneg ha.1 hb.1)]

/-- The sum of a remainder and a further one. -/
theorem addMod_emod (a b : ℤ) : addMod (a % MOD) (b % MOD) = pure ((a + b) % MOD) := by
  rw [addMod_eq (remainder_emod a) (remainder_emod b), ← Int.add_emod]

/-! ### The recursion -/

/-- **What the array keeps** in the rows below `m`: nothing, or the number of the walks. -/
structure Memo (m : ℕ) (table : Grid ℤ) : Prop where
  rows : table.rows = 5000
  cols : table.cols = 10
  entry : ∀ i < m, ∀ x < 10, table.data i x = 0 ∨ table.data i x = count i x

theorem Memo.mono (h : Memo m table) (hn : n ≤ m) : Memo n table where
  rows := h.rows
  cols := h.cols
  entry := fun i hi x hx => h.entry i (hi.trans_le hn) x hx

theorem Memo.get_eq (h : Memo m table) (hn : n < 5000) (hx : x < 10) :
    table.get n x = pure (table.data n x) :=
  Grid.get_eq (h.rows.symm ▸ hn) (h.cols.symm ▸ hx)

/-- **The array while the entry of `n + 1` and `x` is computed**, after the keys `pre`: its other
entries below, and those of the same row and above as they were. -/
structure Summing (table : Grid ℤ) (n x : ℕ) (pre : List ℕ) (table' : Grid ℤ) : Prop where
  memo : Memo (n + 1) table'
  entry : table'.data (n + 1) x = ((pre.map fun k => (walks moves n k : ℤ)).sum) % MOD
  others : ∀ i j, n < i → (i = n + 1 → j ≠ x) → table'.data i j = table.data i j

/-- **One more key** is added. -/
theorem Summing.step {pre : List ℕ} (hn : n + 1 < 5000) (hx : x < 10)
    (h : Summing table n x pre table')
    (hdfs : ∃ t, dfs table' n k = pure (count n k, t) ∧ Memo (n + 1) t ∧
      ∀ i j, n < i → t.data i j = table'.data i j) :
    ∃ t, (do
      let r ← dfs table' ((n + 1 : ℕ) - 1 : ℤ) k
      let res ← r.2.get (n + 1 : ℕ) x
      let sum ← addMod r.1 res
      r.2.put (n + 1 : ℕ) x sum) = pure t ∧ Summing table n x (pre ++ [k]) t := by
  obtain ⟨t, hrun, hmemo, hsame⟩ := hdfs
  have hput : ∀ v, t.put (n + 1 : ℕ) x v = pure (t.set (n + 1) x v) :=
    Grid.put_eq (hmemo.rows.symm ▸ hn) (hmemo.cols.symm ▸ hx)
  have hentry : t.data (n + 1) x = ((pre.map fun k => (walks moves n k : ℤ)).sum) % MOD := by
    rw [hsame _ _ (Nat.lt_succ_self n), h.entry]
  rw [Nat.cast_succ, add_sub_cancel_right, hrun, pure_bind, ← Nat.cast_succ, hmemo.get_eq hn hx,
    pure_bind, hentry, count, addMod_emod, pure_bind, hput]
  refine ⟨_, rfl, ⟨hmemo.rows, hmemo.cols, fun i hi y hy => ?_⟩, ?_, fun i j hi hij => ?_⟩
  · rw [Grid.data_set_of_ne _ _ (by omega)]
    exact hmemo.entry i hi y hy
  · rw [Grid.data_set, if_pos ⟨rfl, rfl⟩, List.map_append, List.sum_append, List.map_singleton,
      List.sum_singleton, add_comm]
  · rw [Grid.data_set_of_ne _ _ (by by_contra hne; push Not at hne; exact hij hne.1 hne.2),
      hsame i j hi, h.others i j hi hij]

/-- **The recursion returns the number of the walks**, and changes no row above. -/
theorem dfs_eq (hn : n < 5000) (hx : x < 10) (h : Memo (n + 1) table) :
    ∃ t, dfs table n x = pure (count n x, t) ∧ Memo (n + 1) t ∧
      ∀ i j, n < i → t.data i j = table.data i j := by
  induction n generalizing x table with
  | zero =>
    rw [dfs, h.get_eq hn hx, pure_bind]
    rcases h.entry 0 (Nat.lt_succ_self 0) x hx with hzero | hcount
    · rw [hzero, if_neg (by simp), if_pos (by simp)]
      exact ⟨table, rfl, h, fun _ _ _ => rfl⟩
    · rw [if_pos (by rw [hcount, count, walks]; decide), hcount]
      exact ⟨table, rfl, h, fun _ _ _ => rfl⟩
  | succ n ih =>
    rw [dfs, h.get_eq hn hx, pure_bind]
    by_cases hzero : table.data (n + 1) x = 0
    · have hstart : Summing table n x [] table := by
        refine ⟨h.mono (Nat.le_succ _), ?_, fun _ _ _ _ => rfl⟩
        rw [hzero, List.map_nil, List.sum_nil, Int.zero_emod]
      obtain ⟨t, hrun, hsum⟩ := foldlM_eq (Summing table n x) hstart
        fun pre k t hpre ht => ht.step (k := k) hn hx
          (ih (by omega) (moves_lt hx (hpre.subset (by simp))) ht.memo)
      have hentry : t.data (n + 1) x = count (n + 1) x := by
        rw [hsum.entry, count, cast_walks_succ]
      have hmemo : Memo (n + 1 + 1) t := by
        refine ⟨hsum.memo.rows, hsum.memo.cols, fun i hi y hy => ?_⟩
        rcases Nat.lt_succ_iff_lt_or_eq.mp hi with hlt | rfl
        · exact hsum.memo.entry i hlt y hy
        · by_cases hyx : y = x
          · rw [hyx]
            exact .inr hentry
          · rw [hsum.others _ _ (Nat.lt_succ_self n) fun _ => hyx]
            exact h.entry _ hi y hy
      rw [hzero, if_neg (by simp), if_neg (by omega), nth_K hx, pure_bind, hrun, pure_bind,
        hmemo.get_eq hn hx, pure_bind, hentry]
      exact ⟨t, rfl, hmemo, fun i j hi => hsum.others i j (by omega) fun heq => by omega⟩
    · rw [if_pos hzero]
      rcases h.entry _ (Nat.lt_succ_self _) x hx with hzero' | hcount
      · exact absurd hzero' hzero
      · rw [hcount]
        exact ⟨table, rfl, h, fun _ _ _ => rfl⟩

/-- **The first version returns the number of the walks** with `n - 1` steps. -/
theorem knightDialer_eq (hn : n < 5000) : ∃ t,
    knightDialer (Grid.fill 5000 10 0) (n + 1 : ℕ) =
      pure ((∑ x ∈ Finset.range 10, (walks moves n x : ℤ)) % MOD, t) := by
  obtain ⟨r, hrun, hsum, hmemo⟩ := foldlM_range_eq (n := 10) (s := ((0 : ℤ), Grid.fill 5000 10 0))
    (fun x (r : ℤ × Grid ℤ) => r.1 = ∑ x ∈ Finset.range x, count n x ∧ Memo (n + 1) r.2)
    ⟨rfl, rfl, rfl, fun _ _ _ _ => .inl rfl⟩ (by
      rintro x hx r ⟨hsum, hmemo⟩
      obtain ⟨t, hdfs, hmemo', -⟩ := dfs_eq hn hx hmemo
      refine ⟨(r.1 + count n x, t), ?_, ?_, hmemo'⟩
      · show (do
          let d ← dfs r.2 ((n + 1 : ℕ) - 1 : ℤ) x
          pure (r.1 + d.1, d.2)) = _
        rw [Nat.cast_succ, add_sub_cancel_right, hdfs, pure_bind]
      · rw [Finset.sum_range_succ, hsum])
  refine ⟨r.2, ?_⟩
  have hnonneg : 0 ≤ r.1 := by
    rw [hsum]
    exact Finset.sum_nonneg fun x _ => (remainder_emod _).1
  rw [knightDialer, hrun, pure_bind, Int.tmod_eq_emod_of_nonneg hnonneg, hsum]
  simp only [count]
  rw [← Finset.sum_int_mod]

/-! ### The table -/

/-- **The table while the row `n` is filled**: the rows below are, this one holds `v`, and those
above hold what they did at first. -/
structure Rows (contents : ℕ → ℕ → ℤ) (n : ℕ) (v : ℕ → ℤ) (table : Grid ℤ) : Prop where
  rows : table.rows = 5000
  cols : table.cols = 10
  below : ∀ i < n, ∀ x < 10, table.data i x = accumulated moves contents i x % MOD
  row : ∀ x < 10, table.data n x = v x
  above : ∀ i, n < i → ∀ x < 10, table.data i x = contents i x

/-- The table holds remainders. -/
def Remainders (contents : ℕ → ℕ → ℤ) : Prop := ∀ i < 5000, ∀ x < 10, Remainder (contents i x)

variable {v : ℕ → ℤ}

/-- A row of which the entries before `x` have been computed, and one more. -/
theorem update_before (f g : ℕ → ℤ) (x : ℕ) :
    Function.update (fun y => if y < x then f y else g y) x (f x) =
      fun y => if y < x + 1 then f y else g y := by
  funext y
  by_cases hyx : y = x
  · rw [hyx, Function.update_self, if_pos (Nat.lt_succ_self x)]
  · rw [Function.update_of_ne hyx]
    exact if_congr (by omega) rfl rfl

theorem Rows.get_eq (h : Rows contents n v table) (hi : i < 5000) (hx : x < 10) :
    table.get i x = pure (table.data i x) :=
  Grid.get_eq (h.rows.symm ▸ hi) (h.cols.symm ▸ hx)

/-- An entry of the row is written. -/
theorem Rows.put (h : Rows contents n v table) (hn : n < 5000) (hx : x < 10) (a : ℤ) :
    ∃ t, table.put n x a = pure t ∧ Rows contents n (Function.update v x a) t := by
  refine ⟨_, Grid.put_eq (h.rows.symm ▸ hn) (h.cols.symm ▸ hx) a, h.rows, h.cols, ?_, ?_, ?_⟩
  · intro i hi y hy
    rw [Grid.data_set_of_ne _ _ (.inl hi.ne), h.below i hi y hy]
  · intro y hy
    rw [Grid.data_set]
    by_cases hyx : y = x
    · rw [if_pos ⟨rfl, hyx⟩, hyx, Function.update_self]
    · rw [if_neg fun heq => hyx heq.2, Function.update_of_ne hyx, h.row y hy]
  · intro i hi y hy
    rw [Grid.data_set_of_ne _ _ (.inl hi.ne'), h.above i hi y hy]

/-- **An entry is computed** from the row below. -/
theorem cell_eq (h : Rows contents (n + 1) v table) (hn : n + 1 < 5000) (hx : x < 10)
    (hv : Remainder (v x)) : ∃ t, cell (n + 1 : ℕ) table x = pure t ∧
      Rows contents (n + 1) (Function.update v x
        ((v x + ((moves x).map (accumulated moves contents n)).sum) % MOD)) t := by
  have hstart : Rows contents (n + 1) (Function.update v x
      ((v x + (([] : List ℕ).map (accumulated moves contents n)).sum) % MOD)) table := by
    rw [List.map_nil, List.sum_nil, add_zero, hv.emod_eq, Function.update_eq_self]
    exact h
  rw [cell, nth_K hx, pure_bind]
  refine foldlM_eq (fun pre t => Rows contents (n + 1) (Function.update v x
    ((v x + (pre.map (accumulated moves contents n)).sum) % MOD)) t) hstart ?_
  intro pre k t hpre ht
  have hk : k < 10 := moves_lt hx (hpre.subset (by simp))
  obtain ⟨t', hput, ht'⟩ := ht.put hn hx
    ((v x + ((pre ++ [k]).map (accumulated moves contents n)).sum) % MOD)
  rw [Function.update_idem] at ht'
  refine ⟨t', ?_, ht'⟩
  rw [List.map_append, List.sum_append, List.map_singleton, List.sum_singleton, ← add_assoc] at hput
  rw [ht.get_eq hn hx, pure_bind, Nat.cast_succ, add_sub_cancel_right, ht.get_eq (by omega) hk,
    pure_bind, ht.row x hx, Function.update_self, ht.below n (Nat.lt_succ_self n) k hk, addMod_emod,
    pure_bind, ← Nat.cast_succ, hput]

/-- **A row is filled.** -/
theorem row_eq (hg : Remainders contents) (h : Rows contents (n + 1) (contents (n + 1)) table)
    (hn : n + 1 < 5000) : ∃ t, (List.range 10).foldlM (cell (n + 1 : ℕ)) table = pure t ∧
      Rows contents (n + 2) (contents (n + 2)) t := by
  obtain ⟨t, hrun, ht⟩ := foldlM_range_eq (n := 10) (fun x t => Rows contents (n + 1)
    (fun y => if y < x then accumulated moves contents (n + 1) y % MOD else contents (n + 1) y) t)
    (by simpa only [Nat.not_lt_zero, if_false] using h) (fun x hx t ht => by
      have hentry : (if x < x then accumulated moves contents (n + 1) x % MOD else
          contents (n + 1) x) = contents (n + 1) x := if_neg (lt_irrefl x)
      obtain ⟨t', hcell, ht'⟩ := cell_eq ht hn hx (by rw [hentry]; exact hg _ hn _ hx)
      rw [hentry, ← accumulated] at ht'
      exact ⟨t', hcell, update_before _ _ x ▸ ht'⟩)
  refine ⟨t, hrun, ht.rows, ht.cols, fun i hi x hx => ?_, fun x hx => ?_, fun i hi x hx => ?_⟩
  · rcases Nat.lt_succ_iff_lt_or_eq.mp hi with hlt | rfl
    · exact ht.below i hlt x hx
    · rw [ht.row x hx, if_pos hx]
  · exact ht.above _ (Nat.lt_succ_self _) x hx
  · exact ht.above i (by omega) x hx

/-- The sum over a row that has been filled. -/
theorem sum_eq (h : Rows contents n v table) (hi : i < n) (hn : i < 5000) :
    (List.range 10).foldlM (fun res (j : ℕ) => do
      let d ← table.get i j
      addMod res d) 0 =
        (pure ((∑ x ∈ Finset.range 10, accumulated moves contents i x) % MOD) : Exec ℤ) := by
  obtain ⟨res, hrun, rfl⟩ := foldlM_range_eq (n := 10) (s := (0 : ℤ)) (f := fun res (j : ℕ) => do
      let d ← table.get i j
      addMod res d)
    (fun x res => res = (∑ x ∈ Finset.range x, accumulated moves contents i x) % MOD) rfl
    (by
      rintro x hx _ rfl
      refine ⟨_, ?_, rfl⟩
      rw [h.get_eq hn hx, pure_bind, h.below i hi x hx, addMod_emod, Finset.sum_range_succ])
  exact hrun

/-- **The loop ends behind the row `m`**, if it begins before. -/
theorem rowLoop_eq (hg : Remainders contents) (hm : m < 5000) (hn : n + 1 ≤ m)
    (h : Rows contents (n + 1) (contents (n + 1)) table) : rowLoop m table (n + 1 : ℕ) =
      pure ((∑ x ∈ Finset.range 10, accumulated moves contents m x) % MOD) := by
  obtain ⟨d, hd⟩ := Nat.exists_eq_add_of_le hn
  induction d generalizing n table with
  | zero =>
    obtain ⟨t, hrun, ht⟩ := row_eq hg h (by omega)
    rw [rowLoop, if_pos (by omega), hrun, pure_bind, if_pos (by omega), hd, Nat.add_zero,
      sum_eq ht (Nat.lt_succ_self _) (by omega)]
  | succ d ih =>
    obtain ⟨t, hrun, ht⟩ := row_eq hg h (by omega)
    rw [rowLoop, if_pos (by omega), hrun, pure_bind, if_neg (by omega), ← Nat.cast_succ]
    exact ih (by omega) ht (by omega)

/-- **Without a step, the loop runs beyond the end of the table.** -/
theorem rowLoop_zero (hg : Remainders contents) (hn : n + 1 ≤ 5000)
    (h : Rows contents (n + 1) (contents (n + 1)) table) :
    rowLoop 0 table (n + 1 : ℕ) = throw .outOfRange := by
  obtain ⟨d, hd⟩ := Nat.exists_eq_add_of_le hn
  induction d generalizing n table with
  | zero =>
    have hget : table.get (n + 1 : ℕ) (0 : ℕ) = throw .outOfRange :=
      if_neg fun hin => by
        have hrows : ((n + 1 : ℕ) : ℤ) < table.rows := hin.1.2
        rw [h.rows] at hrows
        omega
    have hcell : cell (n + 1 : ℕ) table 0 = throw .outOfRange := by
      rw [cell, nth_K (by omega), pure_bind, show moves 0 = [4, 6] from rfl, List.foldlM_cons,
        hget]
      rfl
    rw [rowLoop, if_pos (by omega), List.range_succ_eq_map, List.foldlM_cons, hcell]
    rfl
  | succ d ih =>
    obtain ⟨t, hrun, ht⟩ := row_eq hg h (by omega)
    rw [rowLoop, if_pos (by omega), hrun, pure_bind, if_neg (by omega), ← Nat.cast_succ]
    exact ih (by omega) ht (by omega)

/-- The first row of the table becomes ones. -/
theorem init_eq (contents : ℕ → ℕ → ℤ) : ∃ t,
    (List.range 10).foldlM (fun (dp : Grid ℤ) (j : ℕ) => dp.put 0 j 1)
      { data := contents, rows := 5000, cols := 10 } = pure t ∧
        Rows contents 1 (contents 1) t := by
  obtain ⟨t, hrun, ht⟩ := foldlM_range_eq (n := 10) (f := fun (dp : Grid ℤ) (j : ℕ) => dp.put 0 j 1)
    (s := Grid.mk contents 5000 10)
    (fun x t => Rows contents 0 (fun y => if y < x then 1 else contents 0 y) t)
    ⟨rfl, rfl, fun _ hi => absurd hi (Nat.not_lt_zero _), fun _ _ => rfl, fun _ _ _ _ => rfl⟩
    (by
      intro x hx t ht
      obtain ⟨t', hput, ht'⟩ := ht.put (by omega) hx 1
      exact ⟨t', hput, update_before (fun _ => 1) (contents 0) x ▸ ht'⟩)
  refine ⟨t, hrun, ht.rows, ht.cols, fun i hi x hx => ?_, ht.above 1 one_pos, fun i hi => ?_⟩
  · obtain rfl : i = 0 := by omega
    rw [ht.row x hx, if_pos hx]
    rfl
  · exact ht.above i (by omega)

/-- **The second version returns** the number of the walks with `m` steps and what the contents of
the table contribute. -/
theorem dp_eq (hg : Remainders contents) (hm : 1 ≤ m) (hlt : m < 5000) :
    dp contents m = pure ((∑ x ∈ Finset.range 10, (walks moves m x : ℤ) +
      surplus moves (Finset.range 10) contents m) % MOD) := by
  obtain ⟨t, hinit, ht⟩ := init_eq contents
  have hrun := rowLoop_eq (n := 0) hg hlt hm ht
  rw [sum_accumulated reversible_moves] at hrun
  rw [dp, hinit, pure_bind]
  exact hrun

/-- It does not return if there is no step. -/
theorem dp_zero (hg : Remainders contents) : dp contents 0 = throw .outOfRange := by
  obtain ⟨t, hinit, ht⟩ := init_eq contents
  have hrun := rowLoop_zero (n := 0) hg (by omega) ht
  rw [dp, hinit, pure_bind]
  exact hrun

/-! ### Both versions -/

/-- **The versions agree** for numbers of the length `n`, and neither uses an entry that the tables
do not have. -/
def Agree (contents : ℕ → ℕ → ℤ) (n : ℕ) : Prop :=
  ∃ r t, knightDialer (Grid.fill 5000 10 0) n = pure (r, t) ∧ dp contents ((n : ℤ) - 1) = pure r

/-- **The versions agree exactly if** there is a step, and what the table holds cancels. -/
theorem agree_iff_surplus (hg : Remainders contents) (hn : n < 5000) : Agree contents (n + 1) ↔
    1 ≤ n ∧ MOD ∣ surplus moves (Finset.range 10) contents n := by
  obtain ⟨t, hfirst⟩ := knightDialer_eq hn
  have hagree : Agree contents (n + 1) ↔
      dp contents n = pure ((∑ x ∈ Finset.range 10, (walks moves n x : ℤ)) % MOD) := by
    rw [Agree, Nat.cast_succ, add_sub_cancel_right]
    constructor
    · rintro ⟨r, t', hrun, hdp⟩
      obtain ⟨rfl, -⟩ := Prod.mk.inj (Exec.pure_unique hrun hfirst)
      exact hdp
    · exact fun hdp => ⟨_, t, hfirst, hdp⟩
  rw [hagree]
  rcases Nat.eq_zero_or_pos n with rfl | hpos
  · rw [Nat.cast_zero, dp_zero hg]
    exact iff_of_false (fun h => Exec.pure_ne_throw _ _ h.symm) fun h => Nat.lt_irrefl 0 h.1
  · rw [dp_eq hg hpos hn, Exec.pure_inj, and_iff_right (show 1 ≤ n from hpos),
      Int.emod_eq_emod_iff_emod_sub_eq_zero, add_sub_cancel_left, Int.dvd_iff_emod_eq_zero]

/-- The table holds values of an `int`. -/
def Ints (contents : ℕ → ℕ → ℤ) : Prop := ∀ i x, intMin ≤ contents i x ∧ contents i x ≤ intMax

/-- A table that holds a one in the row `n`, for the key from which the knight cannot move, and
zeros otherwise. -/
def oneIn (n i x : ℕ) : ℤ := if i = n ∧ x = 5 then 1 else 0

theorem ints_oneIn (n : ℕ) : Ints (oneIn n) := by
  intro i x
  rw [oneIn]
  split_ifs
  · decide
  · decide

theorem remainders_oneIn (n : ℕ) : Remainders (oneIn n) := by
  intro i _ x _
  rw [oneIn, Remainder]
  split_ifs
  · decide
  · decide

/-- **A single one spoils the sum.** -/
theorem not_agree_oneIn (hn : n < 5000) : ¬ Agree (oneIn n) (n + 1) := by
  rw [agree_iff_surplus (remainders_oneIn n) hn]
  rintro ⟨hpos, hdvd⟩
  obtain ⟨m, rfl⟩ := Nat.exists_eq_add_of_le' hpos
  have hone : surplus moves (Finset.range 10) (oneIn (m + 1)) (m + 1) = 1 :=
    surplus_single (Finset.mem_range.mpr (by omega)) m
  rw [hone] at hdvd
  exact absurd (Int.le_of_dvd one_pos hdvd) (by decide)

/-- **For no length do the versions agree whatever the table holds.** For contents that are
remainders, they agree exactly if there is a step, and the contents contribute a multiple of `MOD`.
-/
theorem dialers_agree_iff (hn : 1 ≤ n) (hle : n ≤ 5000) :
    (¬ ∀ contents, Ints contents → Agree contents n) ∧
      ∀ contents, Remainders contents →
        (Agree contents n ↔ 2 ≤ n ∧ MOD ∣ surplus moves (Finset.range 10) contents (n - 1)) := by
  obtain ⟨n, rfl⟩ := Nat.exists_eq_add_of_le' hn
  refine ⟨fun hall => not_agree_oneIn (by omega) (hall _ (ints_oneIn n)), fun contents hg => ?_⟩
  rw [agree_iff_surplus hg (by omega), Nat.add_sub_cancel, Nat.succ_le_succ_iff]

/-- Numbers of two digits. -/
theorem dialers_agree_iff_two :
    (¬ ∀ contents, Ints contents → Agree contents 2) ∧
      ∀ contents, Remainders contents →
        (Agree contents 2 ↔ 2 ≤ 2 ∧ MOD ∣ surplus moves (Finset.range 10) contents 1) :=
  dialers_agree_iff (by decide) (by decide)

/-- **The versions do not always agree**: not for two digits, where the table holds a one for the
key in the middle. -/
theorem dialers_differ : ¬ ∀ n, 1 ≤ n → n ≤ 5000 → ∀ contents, Ints contents → Agree contents n :=
  fun hall => not_agree_oneIn (by omega) (hall 2 (by omega) (by omega) _ (ints_oneIn 1))

end KnightDialer

end Candcpp
