import Candcpp.Cpp.Exec
import Candcpp.Order.Windows

/-!
# The greatest profit with one window changed

The two versions of `3652.cpp`. A strategy says for each day how many shares are sold at the price
of the day. Once, for `k` consecutive days, it may be changed: nothing is done on the first half of
them, and one share is sold on each day of the second half.

`maxProfit_bf` changes a copy of the strategy for each window, and adds up its profit. `maxProfit`
adds up the profits and the prices of the first days once and for all, and computes the profit of a
changed strategy from four differences of these sums (`Candcpp.MaxProfit.profit_modified`). So
**both return the greatest profit** (`Candcpp.MaxProfit.same_profit`), of the windows at both ends
too.

The arithmetic is exact, and a position is not bounded.
-/

namespace Candcpp

open Cpp

namespace MaxProfit

/-! ### The first version -/

/-- `for (int i = 0; i < size; ++i)`, which adds up the products. -/
def sumLoop (prices strategy : List ℤ) (size i sum : ℤ) : Exec ℤ := do
  let +zeta sumLoop : type_of% sumLoop := by apply sumLoop
  if i < size then
    let x ← nth prices i
    let y ← nth strategy i
    sumLoop prices strategy size (i + 1) (sum + x * y)
  else
    pure sum
partial_fixpoint

/-- The loop `for (; j < b; ++j)` with `t_strategy[j] = x`, which leaves behind `t_strategy`. -/
def assignLoop (b x j : ℤ) (tStrategy : List ℤ) : Exec (List ℤ) := do
  let +zeta assignLoop : type_of% assignLoop := by apply assignLoop
  if j < b then
    let tStrategy ← setNth tStrategy j x
    assignLoop b x (j + 1) tStrategy
  else
    pure tStrategy
partial_fixpoint

/-- `for (int i = 0; i + k <= size; ++i)`, which leaves behind `ans`. -/
def bfLoop (prices strategy : List ℤ) (k size i ans : ℤ) : Exec ℤ := do
  let +zeta bfLoop : type_of% bfLoop := by apply bfLoop
  if i + k ≤ size then
    let tStrategy ← assignLoop (i + k.tdiv 2) 0 i strategy
    let tStrategy ← assignLoop (i + k) 1 (i + k.tdiv 2) tStrategy
    let tSum ← sumLoop prices tStrategy size 0 0
    bfLoop prices strategy k size (i + 1) (max ans tSum)
  else
    pure ans
partial_fixpoint

/-- `maxProfit_bf`. -/
def maxProfitBf (prices strategy : List ℤ) (k : ℤ) : Exec ℤ := do
  let size : ℤ := prices.length
  let ans ← sumLoop prices strategy size 0 0
  bfLoop prices strategy k size 0 ans

/-! ### The second version -/

/-- `profit_prefix_sum` and `prices_prefix_sum`. -/
structure PrefixSums where
  profit : List ℤ
  prices : List ℤ

/-- `for (int i = 0; i < n; ++i)`, which leaves behind the vectors of sums. -/
def prefixLoop (prices strategy : List ℤ) (n i : ℤ) (s : PrefixSums) : Exec PrefixSums := do
  let +zeta prefixLoop : type_of% prefixLoop := by apply prefixLoop
  if i < n then
    let a ← nth s.profit i
    let x ← nth prices i
    let y ← nth strategy i
    let b ← nth s.prices i
    prefixLoop prices strategy n (i + 1) ⟨s.profit ++ [a + x * y], s.prices ++ [b + x]⟩
  else
    pure s
partial_fixpoint

/-- `for (int i = k; i <= n; ++i)`, which leaves behind `ans`. -/
def windowLoop (s : PrefixSums) (k n i ans : ℤ) : Exec ℤ := do
  let +zeta windowLoop : type_of% windowLoop := by apply windowLoop
  if i ≤ n then
    let a ← nth s.profit (i - k)
    let b ← nth s.profit n
    let c ← nth s.profit i
    let d ← nth s.prices i
    let e ← nth s.prices (i - k.tdiv 2)
    windowLoop s k n (i + 1) (max ans (a + b - c + d - e))
  else
    pure ans
partial_fixpoint

/-- `maxProfit`. -/
def maxProfit (prices strategy : List ℤ) (k : ℤ) : Exec ℤ := do
  let n : ℤ := prices.length
  let s ← prefixLoop prices strategy n 0 ⟨[0], [0]⟩
  let ans ← nth s.profit n
  windowLoop s k n k ans

/-! ### The strategies -/

/-- **The profit** of a strategy. -/
def profit (prices strategy : List ℤ) : ℤ := (List.zipWith (· * ·) prices strategy).sum

/-- **The changed strategy**: for the `k` days from the day `i` on. -/
def modified (strategy : List ℤ) (k i : ℕ) : List ℤ :=
  strategy.take i ++ List.replicate (k / 2) 0 ++ List.replicate (k / 2) 1 ++ strategy.drop (i + k)

/-- The profits of the strategy, and of the strategy when it is changed from a day before `m`. -/
def profits (prices strategy : List ℤ) (k m : ℕ) : Set ℤ :=
  {x | x = profit prices strategy ∨ ∃ i < m, x = profit prices (modified strategy k i)}

variable {prices strategy : List ℤ} {k i j m n : ℕ} {x ans : ℤ}

theorem profits_zero : profits prices strategy k 0 = {profit prices strategy} := by
  ext x
  simp [profits]

theorem profits_succ : profits prices strategy k (m + 1) =
    insert (profit prices (modified strategy k m)) (profits prices strategy k m) := by
  ext x
  rw [Set.mem_insert_iff]
  constructor
  · rintro (rfl | ⟨i, hi, rfl⟩)
    · exact .inr (.inl rfl)
    · rcases Nat.lt_succ_iff_lt_or_eq.mp hi with hlt | rfl
      · exact .inr (.inr ⟨i, hlt, rfl⟩)
      · exact .inl rfl
  · rintro (rfl | rfl | ⟨i, hi, rfl⟩)
    · exact .inr ⟨m, Nat.lt_succ_self m, rfl⟩
    · exact .inl rfl
    · exact .inr ⟨i, hi.trans (Nat.lt_succ_self m), rfl⟩

/-- **The next window** is one more profit. -/
theorem isGreatest_succ (h : IsGreatest (profits prices strategy k m) ans) :
    IsGreatest (profits prices strategy k (m + 1))
      (max ans (profit prices (modified strategy k m))) := by
  rw [profits_succ, max_comm]
  exact h.insert _

theorem profit_append {prices' strategy' : List ℤ} (h : prices.length = strategy.length) :
    profit (prices ++ prices') (strategy ++ strategy') =
      profit prices strategy + profit prices' strategy' := by
  rw [profit, List.zipWith_append h, List.sum_append, profit, profit]

theorem profit_replicate_zero (prices : List ℤ) (n : ℕ) :
    profit prices (List.replicate n 0) = 0 := by
  induction prices generalizing n with
  | nil => rfl
  | cons x prices ih =>
    cases n with
    | zero => rfl
    | succ n =>
      have hrest := ih n
      rw [profit] at hrest ⊢
      rw [List.replicate_succ, List.zipWith_cons_cons, List.sum_cons, hrest, mul_zero, zero_add]

theorem profit_replicate_one (prices : List ℤ) :
    profit prices (List.replicate prices.length 1) = prices.sum := by
  induction prices with
  | nil => rfl
  | cons x prices ih =>
    rw [profit] at ih ⊢
    rw [List.length_cons, List.replicate_succ, List.zipWith_cons_cons, List.sum_cons, ih, mul_one,
      List.sum_cons]

/-! ### The sums of the first days -/

/-- The profit of the first days. -/
def firstProfit (prices strategy : List ℤ) (i : ℕ) : ℤ := profit (prices.take i) (strategy.take i)

/-- The sum of the prices of the first days. -/
def firstPrices (prices : List ℤ) (i : ℕ) : ℤ := (prices.take i).sum

theorem firstProfit_length (hlen : prices.length = strategy.length) :
    firstProfit prices strategy prices.length = profit prices strategy := by
  rw [firstProfit, List.take_length, hlen, List.take_length]

theorem firstProfit_succ {y : ℤ} (hx : prices[i]? = some x) (hy : strategy[i]? = some y) :
    firstProfit prices strategy (i + 1) = firstProfit prices strategy i + x * y := by
  have hlen : (prices.take i).length = (strategy.take i).length := by
    rw [List.length_take_of_le (List.getElem?_eq_some_iff.mp hx).1.le,
      List.length_take_of_le (List.getElem?_eq_some_iff.mp hy).1.le]
  rw [firstProfit, List.take_add_one, List.take_add_one, hx, hy, Option.toList_some,
    Option.toList_some, profit_append hlen, ← firstProfit, profit, List.zipWith_cons_cons,
    List.zipWith_nil_left, List.sum_singleton]

theorem firstPrices_succ (hx : prices[i]? = some x) :
    firstPrices prices (i + 1) = firstPrices prices i + x := by
  rw [firstPrices, List.take_add_one, hx, Option.toList_some, List.sum_append, List.sum_singleton,
    firstPrices]

/-- **The profit of a changed strategy** is computed from four differences of the sums. -/
theorem profit_modified (hlen : prices.length = strategy.length) (hk : Even k)
    (hi : i + k ≤ prices.length) : profit prices (modified strategy k i) =
      firstProfit prices strategy i + firstProfit prices strategy prices.length -
        firstProfit prices strategy (i + k) + firstPrices prices (i + k) -
        firstPrices prices (i + k / 2) := by
  have hhalf : k = k / 2 + k / 2 := by
    obtain ⟨h, rfl⟩ := hk
    omega
  -- The days before the window, its first and its second half, and the days behind it.
  obtain ⟨first, hfirst⟩ : ∃ l, l = between prices i (i + k / 2) := ⟨_, rfl⟩
  obtain ⟨second, hsecond⟩ : ∃ l, l = between prices (i + k / 2) (i + k) := ⟨_, rfl⟩
  have hlen1 : first.length = k / 2 := by
    rw [hfirst, length_between (by omega)]
    omega
  have hlen2 : second.length = k / 2 := by
    rw [hsecond, length_between hi]
    omega
  have htake : ∀ b, between prices 0 b = prices.take b := fun b => by
    rw [between, List.drop_zero, Nat.sub_zero]
  have hupto : prices.take (i + k / 2) = prices.take i ++ first := by
    rw [← htake, ← htake, hfirst, ← between_append (Nat.zero_le i) (Nat.le_add_right _ _)]
  have hupto' : prices.take (i + k) = prices.take (i + k / 2) ++ second := by
    rw [← htake, ← htake, hsecond, ← between_append (Nat.zero_le _) (by omega)]
  have hprices : prices = prices.take i ++ first ++ second ++ prices.drop (i + k) := by
    rw [← hupto, ← hupto', List.take_append_drop]
  have hsplit : ∀ b, (prices.take b).length = (strategy.take b).length := fun b => by
    rw [List.length_take, List.length_take, hlen]
  have hchanged : profit prices (modified strategy k i) = firstProfit prices strategy i +
      second.sum + profit (prices.drop (i + k)) (strategy.drop (i + k)) := by
    conv_lhs => rw [hprices, modified]
    have hzero := profit_replicate_zero first (k / 2)
    have hone := profit_replicate_one second
    rw [hlen2] at hone
    rw [profit_append (by simp [hlen1, hlen2, hlen]), profit_append (by simp [hlen1, hlen]),
      profit_append (hsplit i), hzero, hone, add_zero, firstProfit]
  have hwhole : profit prices strategy = firstProfit prices strategy (i + k) +
      profit (prices.drop (i + k)) (strategy.drop (i + k)) := by
    rw [firstProfit, ← profit_append (hsplit _), List.take_append_drop, List.take_append_drop]
  have hsum : firstPrices prices (i + k) = firstPrices prices (i + k / 2) + second.sum := by
    rw [firstPrices, hupto', List.sum_append, firstPrices]
  rw [hchanged, firstProfit_length hlen, hwhole, hsum]
  ring

/-! ### The first version -/

/-- **The sum of the products** is the profit. -/
theorem sumLoop_eq (hlen : prices.length = strategy.length) (hi : i ≤ prices.length) :
    sumLoop prices strategy prices.length i (firstProfit prices strategy i) =
      pure (profit prices strategy) := by
  obtain ⟨d, hd⟩ := Nat.exists_eq_add_of_le hi
  induction d generalizing i with
  | zero =>
    obtain rfl : prices.length = i := hd
    rw [sumLoop, if_neg (lt_irrefl _), firstProfit_length hlen]
  | succ d ih =>
    have hx : prices[i]? = some prices[i] := List.getElem?_eq_getElem (by omega)
    have hy : strategy[i]? = some strategy[i] := List.getElem?_eq_getElem (by omega)
    rw [sumLoop, if_pos (by omega), nth_eq hx, pure_bind, nth_eq hy, pure_bind, ← Nat.cast_succ,
      ← firstProfit_succ hx hy]
    exact ih (by omega) (by omega)

theorem sumLoop_zero (hlen : prices.length = strategy.length) :
    sumLoop prices strategy prices.length 0 0 = pure (profit prices strategy) :=
  sumLoop_eq hlen (Nat.zero_le _)

/-- **The assignments** to `n` elements from the position `j` on. -/
theorem assignLoop_eq (x : ℤ) (v : List ℤ) (hn : j + n ≤ v.length) :
    assignLoop (j + n : ℕ) x j v =
      pure (v.take j ++ List.replicate n x ++ v.drop (j + n)) := by
  induction n generalizing j v with
  | zero =>
    rw [Nat.add_zero, assignLoop, if_neg (lt_irrefl _), List.replicate_zero, List.append_nil,
      List.take_append_drop]
  | succ n ih =>
    have hset : (v.set j x).take (j + 1) = v.take j ++ [x] := by
      rw [List.take_add_one, List.take_set_of_le le_rfl, List.getElem?_set_self (by omega)]
      rfl
    have hnext := ih (j := j + 1) (v.set j x) (by rw [List.length_set]; omega)
    rw [hset, List.drop_set_of_lt (by omega), List.append_assoc (v.take j), List.singleton_append,
      ← List.replicate_succ, Nat.add_right_comm, Nat.add_assoc, Nat.cast_succ j] at hnext
    rw [assignLoop, if_pos (by omega), setNth_eq (by omega), pure_bind]
    exact hnext

/-- The number of days of each half. -/
theorem tdiv_two (k : ℕ) : (k : ℤ).tdiv 2 = (k / 2 : ℕ) := rfl

/-- **The copy of the strategy** after the two loops. -/
theorem assign_both (hk : Even k) (hi : i + k ≤ strategy.length) :
    (assignLoop (i + (k : ℤ).tdiv 2) 0 i strategy >>= fun t =>
      assignLoop (i + k) 1 (i + (k : ℤ).tdiv 2) t) = pure (modified strategy k i) := by
  obtain ⟨h, rfl⟩ := hk
  have hdiv : (h + h) / 2 = h := by omega
  have hend : ((i + h + h : ℕ) : ℤ) = i + (h + h : ℕ) := by omega
  have hlen : (strategy.take i ++ List.replicate h (0 : ℤ)).length = i + h := by
    rw [List.length_append, List.length_take_of_le (by omega), List.length_replicate]
  have hfirst := assignLoop_eq (j := i) (n := h) 0 strategy (by omega)
  have hsecond := assignLoop_eq (j := i + h) (n := h) 1
    (strategy.take i ++ List.replicate h 0 ++ strategy.drop (i + h)) (by
      rw [List.length_append, hlen, List.length_drop]
      omega)
  have hdrop : (strategy.take i ++ List.replicate h 0 ++ strategy.drop (i + h)).drop (i + h + h) =
      strategy.drop (i + (h + h)) := by
    rw [← List.drop_drop, List.drop_left' hlen, List.drop_drop, Nat.add_assoc]
  rw [List.take_left' hlen, hdrop, Nat.cast_add i h, hend] at hsecond
  rw [Nat.cast_add] at hfirst
  rw [tdiv_two, hdiv, hfirst, pure_bind, modified, hdiv]
  exact hsecond

theorem length_modified (hk : Even k) (hi : i + k ≤ strategy.length) :
    (modified strategy k i).length = strategy.length := by
  obtain ⟨h, rfl⟩ := hk
  rw [modified, List.length_append, List.length_append, List.length_append, List.length_replicate,
    List.length_replicate, List.length_drop, List.length_take_of_le (by omega)]
  omega

/-- **The loop over the windows** of the first version. -/
theorem bfLoop_eq (hlen : prices.length = strategy.length) (hk : Even k)
    (hn : n + k = prices.length + 1) (hi : i ≤ n)
    (h : IsGreatest (profits prices strategy k i) ans) : ∃ ans',
      bfLoop prices strategy k prices.length i ans = pure ans' ∧
        IsGreatest (profits prices strategy k n) ans' := by
  obtain ⟨d, hd⟩ := Nat.exists_eq_add_of_le hi
  induction d generalizing i ans with
  | zero =>
    obtain rfl : n = i := hd
    exact ⟨ans, by rw [bfLoop, if_neg (by omega)], h⟩
  | succ d ih =>
    have hin : i + k ≤ strategy.length := by omega
    have hsum := sumLoop_zero (hlen.trans (length_modified hk hin).symm)
    rw [bfLoop, if_pos (by omega), ← bind_assoc, assign_both hk hin, pure_bind, hsum, pure_bind,
      ← Nat.cast_succ]
    exact ih (by omega) (isGreatest_succ h) (by omega)

/-! ### The second version -/

/-- The values of a function at `0`, ..., `n`. -/
def upTo (f : ℕ → ℤ) (n : ℕ) : List ℤ := (List.range (n + 1)).map f

theorem nth_upTo (f : ℕ → ℤ) (h : i ≤ n) : nth (upTo f n) i = pure (f i) := by
  refine nth_eq ?_
  rw [upTo, List.getElem?_map, List.getElem?_range (Nat.lt_succ_of_le h), Option.map_some]

theorem upTo_succ (f : ℕ → ℤ) (n : ℕ) : upTo f (n + 1) = upTo f n ++ [f (n + 1)] := by
  rw [upTo, List.range_succ, List.map_append, List.map_singleton, upTo]

/-- The vectors of the sums up to a day. -/
def prefixSums (prices strategy : List ℤ) (i : ℕ) : PrefixSums :=
  ⟨upTo (firstProfit prices strategy) i, upTo (firstPrices prices) i⟩

/-- **The loop over the days** adds up the profits and the prices. -/
theorem prefixLoop_eq (hlen : prices.length = strategy.length) (hi : i ≤ prices.length) :
    prefixLoop prices strategy prices.length i (prefixSums prices strategy i) =
      pure (prefixSums prices strategy prices.length) := by
  obtain ⟨d, hd⟩ := Nat.exists_eq_add_of_le hi
  induction d generalizing i with
  | zero =>
    obtain rfl : prices.length = i := hd
    rw [prefixLoop, if_neg (lt_irrefl _)]
  | succ d ih =>
    have hx : prices[i]? = some prices[i] := List.getElem?_eq_getElem (by omega)
    have hy : strategy[i]? = some strategy[i] := List.getElem?_eq_getElem (by omega)
    have hnext := ih (i := i + 1) (by omega) (by omega)
    rw [prefixSums, upTo_succ, upTo_succ, firstProfit_succ hx hy, firstPrices_succ hx] at hnext
    rw [prefixLoop, if_pos (by omega), prefixSums, nth_upTo _ le_rfl, pure_bind, nth_eq hx,
      pure_bind, nth_eq hy, pure_bind, nth_upTo _ le_rfl, pure_bind, ← Nat.cast_succ]
    exact hnext

/-- **The loop over the windows** of the second version. -/
theorem windowLoop_eq (hlen : prices.length = strategy.length) (hk : Even k)
    (hn : n + k = prices.length + 1) (hi : i ≤ n)
    (h : IsGreatest (profits prices strategy k i) ans) : ∃ ans',
      windowLoop (prefixSums prices strategy prices.length) k prices.length (i + k : ℕ) ans =
          pure ans' ∧
        IsGreatest (profits prices strategy k n) ans' := by
  obtain ⟨d, hd⟩ := Nat.exists_eq_add_of_le hi
  induction d generalizing i ans with
  | zero =>
    obtain rfl : n = i := hd
    exact ⟨ans, by rw [windowLoop, if_neg (by omega)], h⟩
  | succ d ih =>
    have hstart : ((i + k : ℕ) : ℤ) - k = i := by omega
    have hhalf : ((i + k : ℕ) : ℤ) - (k : ℤ).tdiv 2 = (i + k / 2 : ℕ) := by
      rw [tdiv_two]
      obtain ⟨h, rfl⟩ := hk
      omega
    have hnext : ((i + k : ℕ) : ℤ) + 1 = (i + 1 + k : ℕ) := by omega
    rw [windowLoop, if_pos (by omega), prefixSums, hstart, hhalf, nth_upTo _ (by omega), pure_bind,
      nth_upTo _ le_rfl, pure_bind, nth_upTo _ (by omega), pure_bind, nth_upTo _ (by omega),
      pure_bind, nth_upTo _ (by omega), pure_bind, ← profit_modified hlen hk (by omega), hnext,
      ← prefixSums]
    exact ih (by omega) (isGreatest_succ h) (by omega)

/-! ### Both versions -/

/-- **The versions agree.** Each returns the greatest profit of the strategy, and of the strategy
when it is changed in a window. -/
theorem same_profit (hlen : prices.length = strategy.length) (hk : Even k)
    (hkn : k ≤ prices.length) : ∃ ans, maxProfitBf prices strategy k = pure ans ∧
      maxProfit prices strategy k = pure ans ∧
      IsGreatest {x | x = profit prices strategy ∨
        ∃ i, i + k ≤ prices.length ∧ x = profit prices (modified strategy k i)} ans := by
  obtain ⟨n, hn⟩ : ∃ n, n + k = prices.length + 1 := ⟨prices.length + 1 - k, by omega⟩
  have hset : {x | x = profit prices strategy ∨
      ∃ i, i + k ≤ prices.length ∧ x = profit prices (modified strategy k i)} =
      profits prices strategy k n := by
    ext x
    refine or_congr_right (exists_congr fun i => and_congr_left fun _ => ?_)
    omega
  have hstart : IsGreatest (profits prices strategy k 0) (profit prices strategy) := by
    rw [profits_zero]
    exact isGreatest_singleton
  obtain ⟨ans, hbf, hans⟩ := bfLoop_eq hlen hk hn (Nat.zero_le n) hstart
  obtain ⟨ans', hrun, hans'⟩ := windowLoop_eq hlen hk hn (Nat.zero_le n) hstart
  obtain rfl : ans = ans' := hans.unique hans'
  have hprefix := prefixLoop_eq hlen (Nat.zero_le prices.length)
  have hempty : prefixSums prices strategy 0 = ⟨[0], [0]⟩ := rfl
  rw [Nat.cast_zero] at hbf hprefix
  rw [hempty] at hprefix
  rw [Nat.zero_add] at hrun
  refine ⟨ans, ?_, ?_, hset ▸ hans⟩
  · rw [maxProfitBf, sumLoop_zero hlen, pure_bind]
    exact hbf
  · rw [maxProfit, hprefix, pure_bind, prefixSums, nth_upTo _ le_rfl, pure_bind,
      firstProfit_length hlen]
    exact hrun

/-- Three days, and a window of two of them. -/
theorem same_profit_three : ∃ ans, maxProfitBf [4, 2, 8] [-1, 0, 1] (2 : ℕ) = pure ans ∧
    maxProfit [4, 2, 8] [-1, 0, 1] (2 : ℕ) = pure ans ∧
    IsGreatest {x | x = profit [4, 2, 8] [-1, 0, 1] ∨
      ∃ i, i + 2 ≤ 3 ∧ x = profit [4, 2, 8] (modified [-1, 0, 1] 2 i)} ans :=
  same_profit rfl (by decide) (by decide)

end MaxProfit

end Candcpp
