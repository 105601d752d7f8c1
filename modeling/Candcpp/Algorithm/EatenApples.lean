import Candcpp.Cpp.OrderedMap
import Candcpp.Order.Deadlines
import Candcpp.Order.PriorityQueue

/-!
# The most apples that can be eaten

The two versions of `leetcode/priority_queue/1705.cpp`. On day `i` a tree grows `apples[i]` apples,
which are rotten from day `i + days[i]` on, and one apple can be eaten each day. Both versions eat
what rots first: `eatenApples` keeps pairs of a day and a number in a priority queue, and after the
last tree it eats for several days at once; `eatenApples_my` keeps the number for each day in a map,
and goes through all days.

Both follow an eager plan (`Candcpp.EatenApples.eatenApples_eq`,
`Candcpp.EatenApples.eatenApplesMy_iff`), so that no plan eats more. But the days and the numbers
are `int`s. `eatenApples` is right where no day on which apples are rotten overflows.
`eatenApples_my` adds up apples of several trees, and counts the days up while any apples are left,
so that **both return the greatest number exactly if none of this overflows**
(`Candcpp.EatenApples.eatenApples_iff`).

The number of trees is converted to an `int`, and only so many trees are looked at; a position is
less than that. What `eatenApples_my` prints is left out.
-/

namespace Candcpp

open Cpp

namespace EatenApples

/-! ### The code -/

/-- `int n = apples.size()`. -/
def size (apples : List ℕ) : ℤ := intOfSize apples.length

/-- `greater<pii>`: the greater pair has the lower priority. -/
def Greater (x y : ℤ × ℤ) : Prop := x.1 > y.1 ∨ (x.1 = y.1 ∧ x.2 > y.2)

instance : DecidableRel Greater := fun _ _ => inferInstanceAs (Decidable (_ ∨ _))

instance : IsStrictOrder (ℤ × ℤ) Greater where
  irrefl := by
    rintro x (h | ⟨-, h⟩)
    · exact lt_irrefl _ h
    · exact lt_irrefl _ h
  trans := by
    rintro x y z (hxy | ⟨hxy, hxy'⟩) (hyz | ⟨hyz, hyz'⟩)
    · exact Or.inl (hyz.trans hxy)
    · exact Or.inl (hyz ▸ hxy)
    · exact Or.inl (hxy ▸ hyz)
    · exact Or.inr ⟨hxy.trans hyz, hyz'.trans hxy'⟩

section Queue

variable (Q : PriorityQueue (ℤ × ℤ) Greater)

/-- `while (!pq.empty() && pq.top().first <= i)`. -/
def popLoop (i : ℤ) (pq : Q.Queue) : Exec Q.Queue := do
  let +zeta popLoop : type_of% popLoop := by apply popLoop
  if Q.IsEmpty pq then
    pure pq
  else
    let top ← Q.top pq
    if top.1 ≤ i then
      let pq ← Q.pop pq
      popLoop i pq
    else
      pure pq
partial_fixpoint

/-- `if (!pq.empty())`: the body eats one apple, and leaves behind `pq` and `ans`. -/
def eatTop (pq : Q.Queue) (ans : ℤ) : Exec (Q.Queue × ℤ) := do
  if Q.IsEmpty pq then
    pure (pq, ans)
  else
    let curr ← Q.top pq
    let pq ← Q.pop pq
    let second := curr.2 - 1
    let pq := if second ≠ 0 then Q.push pq (curr.1, second) else pq
    let ans ← int (ans + 1)
    pure (pq, ans)

/-- `while (i < n)`, which leaves behind `i`, `pq` and `ans`. -/
def growLoop (apples days : List ℕ) (n i : ℤ) (pq : Q.Queue) (ans : ℤ) :
    Exec (ℤ × Q.Queue × ℤ) := do
  let +zeta growLoop : type_of% growLoop := by apply growLoop
  if i < n then
    let pq ← popLoop Q i pq
    let day ← nth days i
    let rottenDay ← int (i + day)
    let count ← nth apples i
    let pq := if count > 0 then Q.push pq (rottenDay, count) else pq
    let (pq, ans) ← eatTop Q pq ans
    growLoop apples days n (i + 1) pq ans
  else
    pure (i, pq, ans)
partial_fixpoint

/-- `while (!pq.empty())`, which leaves behind `ans`. -/
def restLoop (i : ℤ) (pq : Q.Queue) (ans : ℤ) : Exec ℤ := do
  let +zeta restLoop : type_of% restLoop := by apply restLoop
  if Q.IsEmpty pq then
    pure ans
  else
    let pq ← popLoop Q i pq
    if Q.IsEmpty pq then
      pure ans
    else
      let curr ← Q.top pq
      let pq ← Q.pop pq
      let num := min (curr.1 - i) curr.2
      let ans ← int (ans + num)
      let i ← int (i + num)
      restLoop i pq ans
partial_fixpoint

/-- `eatenApples`, with an implementation of the queue. -/
def eatenApples (apples days : List ℕ) : Exec ℤ := do
  let (i, pq, ans) ← growLoop Q apples days (size apples) 0 Q.empty 0
  restLoop Q i pq ans

end Queue

/-- `if (i < n && apples[i] > 0) { remain[i + days[i]] += apples[i]; }`. -/
def grow (apples days : List ℕ) (n i : ℤ) (remain : OrderedMap ℤ ℤ) : Exec (OrderedMap ℤ ℤ) := do
  if i < n then
    let count ← nth apples i
    if count > 0 then
      let day ← nth days i
      let key ← int (i + day)
      let sum ← int (remain.val.index key 0 + count)
      pure (remain.insert key sum)
    else
      pure remain
  else
    pure remain

/-- `while (p != remain.end())`, with the iterator `p`. -/
def eraseLoop (i : ℤ) (p : WithTop ℤ) (remain : OrderedMap ℤ ℤ) : Exec (OrderedMap ℤ ℤ) := do
  let +zeta eraseLoop : type_of% eraseLoop := by apply eraseLoop
  match p with
  | none => pure remain
  | some key =>
    if i ≥ key then
      let remain := remain.erase key
      eraseLoop i (remain.next key) remain
    else
      eraseLoop i (remain.next key) remain
partial_fixpoint

/-- `if (!remain.empty())`: the body eats one apple, and leaves behind `remain` and `ans`. -/
def eatFirst (remain : OrderedMap ℤ ℤ) (ans : ℤ) : Exec (OrderedMap ℤ ℤ × ℤ) := do
  match remain.first with
  | none => pure (remain, ans)
  | some key =>
    let second := remain.val.index key 0
    let remain := if second - 1 > 0 then remain.insert key (second - 1) else remain.erase key
    let ans ← int (ans + 1)
    pure (remain, ans)

/-- `for (int i = 0; i < n || !remain.empty(); i++)`. -/
def dayLoop (apples days : List ℕ) (n i : ℤ) (remain : OrderedMap ℤ ℤ) (ans : ℤ) : Exec ℤ := do
  let +zeta dayLoop : type_of% dayLoop := by apply dayLoop
  if i < n ∨ remain.keys ≠ ∅ then
    let remain ← grow apples days n i remain
    let remain ← eraseLoop i remain.first remain
    let (remain, ans) ← eatFirst remain ans
    let i ← int (i + 1)
    dayLoop apples days n i remain ans
  else
    pure ans
partial_fixpoint

/-- `eatenApples_my`. -/
def eatenApplesMy (apples days : List ℕ) : Exec ℤ :=
  dayLoop apples days (size apples) 0 OrderedMap.empty 0

/-! ### The greatest number -/

/-- The apples of the first `n` trees, each from the day on which it grows until it is rotten. -/
def trees (apples days : List ℕ) (n : ℕ) : Goods ℕ where
  all := Finset.range n
  amount := fun i => apples.getD i 0
  start := fun i => i
  stop := fun i => i + days.getD i 0

/-- The numbers of apples that can be eaten, one on each day, of those of the first `n` trees. -/
def numbers (apples days : List ℕ) (n : ℕ) : Set ℕ :=
  {k | ∃ p, (trees apples days n).Permitted p ∧ ∃ d, Goods.consumed p d = k}

/-- **Both versions return the greatest number** of apples that can be eaten. -/
def Correct (Q : PriorityQueue (ℤ × ℤ) Greater) (apples days : List ℕ) : Prop :=
  ∃ k : ℕ, eatenApples Q apples days = pure (k : ℤ) ∧ eatenApplesMy apples days = pure (k : ℤ) ∧
    IsGreatest (numbers apples days apples.length) k

variable {apples days : List ℕ} {n d e i : ℕ} {q : ℕ → Option ℕ}

/-- **What grows on a day**: the apples of one tree. -/
theorem shelf_eq (hq : (trees apples days n).Permitted q) (hd : d < n) :
    (trees apples days n).shelf q d e = (trees apples days n).stock q d e +
      if d + days.getD d 0 = e then apples.getD d 0 else 0 := by
  rw [hq.shelf_eq]
  congr 1
  have hfilter : (trees apples days n).all.filter (fun i => (trees apples days n).stop i = e ∧
      (trees apples days n).start i = d) = if d + days.getD d 0 = e then {d} else ∅ := by
    ext i
    rw [Finset.mem_filter]
    simp only [trees, Finset.mem_range]
    split_ifs with h
    · rw [Finset.mem_singleton]
      constructor
      · exact fun hi => hi.2.2
      · rintro rfl
        exact ⟨hd, h, rfl⟩
    · refine iff_of_false ?_ (Finset.notMem_empty i)
      rintro ⟨-, hi, rfl⟩
      exact h hi
  rw [hfilter]
  split_ifs
  · exact Finset.sum_singleton _ _
  · exact Finset.sum_empty

theorem start_lt (hd : n ≤ d) :
    ∀ i ∈ (trees apples days n).all, (trees apples days n).start i < d :=
  fun _ hi => (Finset.mem_range.mp hi).trans_le hd

/-- On a day on which nothing is rotten any more, nothing is left of it. -/
theorem stock_eq_zero (h : ∀ i < n, i + days.getD i 0 ≠ e) :
    (trees apples days n).stock q d e = 0 := by
  refine Finset.sum_eq_zero fun i hi => ?_
  obtain ⟨hmem, hstop, -⟩ := Finset.mem_filter.mp hi
  exact absurd hstop (h i (Finset.mem_range.mp hmem))

/-- **An eager plan eats the greatest number**, where all apples are rotten on day `b` at last. -/
theorem isGreatest_consumed {b : ℕ} (hq : (trees apples days n).Eager q) (hn : n ≤ b)
    (hb : ∀ i < n, i + days.getD i 0 ≤ b) :
    IsGreatest (numbers apples days n) (Goods.consumed q b) := by
  refine ⟨⟨q, hq.permitted, b, rfl⟩, ?_⟩
  rintro _ ⟨p, hp, d, rfl⟩
  have hrest := (hq.rest (start_lt hn) (fun e he => stock_eq_zero fun i hi => by
    have := hb i hi; omega) d).1
  calc Goods.consumed p d ≤ Goods.consumed q d := hq.consumed_le hp d
    _ ≤ Goods.consumed q (b + d) := Goods.consumed_mono q (Nat.le_add_left d b)
    _ = Goods.consumed q b := hrest

/-- The number of apples that have been eaten does not overflow. -/
theorem int_consumed {k : ℕ} (h : Goods.consumed q (d + k) = Goods.consumed q d + k)
    (hd : (d + k : ℤ) ≤ intMax) :
    int (Goods.consumed q d + k) = pure (Goods.consumed q (d + k) : ℤ) := by
  have hle : Goods.consumed q (d + k) ≤ d + k := Goods.consumed_le q _
  rw [h] at hle ⊢
  push_cast
  exact int_eq (by rw [intMin]; omega) (by omega)

/-! ### The queue -/

/-- How many of the apples in the queue are rotten on day `e`. -/
def amountAt (M : Multiset (ℤ × ℤ)) (e : ℕ) : ℤ :=
  (M.map fun x : ℤ × ℤ => if x.1 = (e : ℤ) then x.2 else 0).sum

variable {Q : PriorityQueue (ℤ × ℤ) Greater} {pq : Q.Queue} {M M' : Multiset (ℤ × ℤ)}
  {x : ℤ × ℤ} {f : ℕ → ℕ}

@[simp] theorem amountAt_zero (e : ℕ) : amountAt 0 e = 0 := rfl

theorem amountAt_cons (x : ℤ × ℤ) (M : Multiset (ℤ × ℤ)) (e : ℕ) :
    amountAt (x ::ₘ M) e = (if x.1 = e then x.2 else 0) + amountAt M e := by
  rw [amountAt, Multiset.map_cons, Multiset.sum_cons, amountAt]

theorem amountAt_nonneg (h : ∀ x ∈ M, 0 < x.2) (e : ℕ) : 0 ≤ amountAt M e := by
  refine Multiset.sum_nonneg fun c hc => ?_
  obtain ⟨x, hx, rfl⟩ := Multiset.mem_map.mp hc
  split_ifs
  · exact (h x hx).le
  · exact le_rfl

/-- Where some apples are rotten on day `e`, there is a pair for this day. -/
theorem exists_of_amountAt_pos (h : 0 < amountAt M e) : ∃ x ∈ M, x.1 = (e : ℤ) := by
  by_contra hno
  push Not at hno
  refine h.ne' (Multiset.sum_eq_zero fun c hc => ?_)
  obtain ⟨x, hx, rfl⟩ := Multiset.mem_map.mp hc
  exact if_neg (hno x hx)

/-- **The queue holds** the apples that are rotten after day `d`, and how many on each day. Pairs
for the days until `d` may be there as well. -/
structure Holds (M : Multiset (ℤ × ℤ)) (d : ℕ) (f : ℕ → ℕ) : Prop where
  pos : ∀ x ∈ M, 0 < x.2
  eq : ∀ e, d < e → amountAt M e = f e

theorem Holds.tail (h : Holds (x ::ₘ M) d f) (hx : x.1 ≤ d) : Holds M d f where
  pos := fun y hy => h.pos y (Multiset.mem_cons_of_mem hy)
  eq := fun e he => by
    have hcons := h.eq e he
    rwa [amountAt_cons, if_neg (by omega), zero_add] at hcons

/-- **The loop removes the rotten apples.** -/
theorem popLoop_eq (h : Holds (Q.contents pq) d f) : ∃ pq', popLoop Q d pq = pure pq' ∧
    Holds (Q.contents pq') d f ∧ (∀ x ∈ Q.contents pq', (d : ℤ) < x.1) ∧
    (Q.contents pq').card ≤ (Q.contents pq).card := by
  induction hk : (Q.contents pq).card using Nat.strong_induction_on generalizing pq with
  | h k ih =>
    rw [popLoop]
    by_cases hempty : Q.contents pq = 0
    · rw [if_pos (PriorityQueue.isEmpty_iff.mpr hempty)]
      refine ⟨pq, rfl, h, fun x hx => ?_, hk.le⟩
      rw [hempty] at hx
      exact absurd hx (Multiset.notMem_zero x)
    · obtain ⟨x, -, htop, hfirst, pq', hpop, hcons⟩ := Q.top_eq pq hempty
      rw [if_neg (PriorityQueue.isEmpty_iff.not.mpr hempty), htop, pure_bind]
      by_cases hx : x.1 ≤ d
      · rw [if_pos hx, hpop, pure_bind]
        rw [hcons, Multiset.card_cons] at hk
        rw [hcons] at h
        obtain ⟨pq'', hrun, h', hlt, hcard⟩ := ih _ (by omega) (h.tail hx) rfl
        exact ⟨pq'', hrun, h', hlt, by omega⟩
      · rw [if_neg hx]
        refine ⟨pq, rfl, h, fun y hy => ?_, hk.le⟩
        have hle : x.1 ≤ y.1 := not_lt.mp fun hlt => hfirst y hy (.inl hlt)
        omega

/-- **The top of the queue** is what rots first. -/
theorem Holds.first (h : Holds (x ::ₘ M) d f) (hlt : ∀ y ∈ x ::ₘ M, (d : ℤ) < y.1)
    (hfirst : ∀ y ∈ x ::ₘ M, ¬ Greater x y) : ∃ e : ℕ, x.1 = e ∧ d < e ∧ x.2 ≤ f e ∧
      ∀ e', d < e' → 0 < f e' → e ≤ e' := by
  have hx := hlt x (Multiset.mem_cons_self x M)
  obtain ⟨e, he⟩ := Int.eq_ofNat_of_zero_le (show 0 ≤ x.1 by omega)
  refine ⟨e, he, by omega, ?_, fun e' hde' hpos => ?_⟩
  · have hnonneg : 0 ≤ amountAt M e :=
      amountAt_nonneg (fun y hy => h.pos y (Multiset.mem_cons_of_mem hy)) e
    have heq := h.eq e (by omega)
    rw [amountAt_cons, if_pos he] at heq
    omega
  · obtain ⟨y, hy, hye⟩ := exists_of_amountAt_pos (M := x ::ₘ M) (e := e') (by
      rw [h.eq e' hde']
      exact_mod_cast hpos)
    have hle : x.1 ≤ y.1 := not_lt.mp fun hgt => hfirst y hy (.inl hgt)
    omega

/-- **One apple is eaten**, as by an eager plan. -/
theorem eatTop_eq (hq : (trees apples days n).Eager q)
    (h : Holds (Q.contents pq) d ((trees apples days n).shelf q d))
    (hlt : ∀ x ∈ Q.contents pq, (d : ℤ) < x.1) (hd : (d : ℤ) < intMax) :
    ∃ pq', eatTop Q pq (Goods.consumed q d) = pure (pq', (Goods.consumed q (d + 1) : ℤ)) ∧
      Holds (Q.contents pq') (d + 1) ((trees apples days n).stock q (d + 1)) := by
  rw [eatTop]
  by_cases hempty : Q.contents pq = 0
  · have hzero : ∀ e, d < e → (trees apples days n).shelf q d e = 0 := by
      intro e he
      have heq := h.eq e he
      rw [hempty, amountAt_zero] at heq
      exact_mod_cast heq.symm
    obtain ⟨hcount, hstock⟩ := hq.idle hzero
    rw [if_pos (PriorityQueue.isEmpty_iff.mpr hempty), hcount]
    refine ⟨pq, rfl, h.pos, fun e he => ?_⟩
    rw [hstock, h.eq e (by omega)]
  · obtain ⟨x, -, htop, hfirst, pq', hpop, hcons⟩ := Q.top_eq pq hempty
    rw [hcons] at h hlt hfirst
    obtain ⟨e, he, hde, hle, hmin⟩ := h.first hlt hfirst
    have hx := h.pos x (Multiset.mem_cons_self x _)
    obtain ⟨hcount, hstock⟩ := hq.eats hde (by omega) hmin
    rw [if_neg (PriorityQueue.isEmpty_iff.not.mpr hempty), htop, pure_bind, hpop, pure_bind]
    dsimp only
    have hans := int_consumed hcount (by omega)
    rw [Nat.cast_one] at hans
    rw [hans, pure_bind]
    refine ⟨_, rfl, ?_⟩
    have hold : ∀ e', d + 1 < e' → (if x.1 = e' then x.2 else 0) + amountAt (Q.contents pq') e' =
        (trees apples days n).stock q (d + 1) e' + if e = e' then 1 else 0 := by
      intro e' he'
      have heq := h.eq e' (by omega)
      have hs := hstock e'
      rw [amountAt_cons] at heq
      rw [heq, ← hs]
      push_cast
      rfl
    split_ifs with hsecond
    · rw [Q.contents_push]
      constructor
      · intro y hy
        rcases Multiset.mem_cons.mp hy with rfl | hy
        · show 0 < x.2 - 1
          omega
        · exact h.pos y (Multiset.mem_cons_of_mem hy)
      · intro e' he'
        have := hold e' he'
        rw [amountAt_cons]
        dsimp only
        split_ifs at this ⊢ <;> omega
    · constructor
      · exact fun y hy => h.pos y (Multiset.mem_cons_of_mem hy)
      · intro e' he'
        have := hold e' he'
        split_ifs at this <;> omega

/-- **The first loop** follows an eager plan until the last tree. -/
theorem growLoop_eq (hq : (trees apples days n).Eager q) (hn : n ≤ apples.length)
    (hlen : apples.length = days.length) (hdays : ∀ i, days.getD i 0 = 0 → apples.getD i 0 = 0)
    (hmax : ∀ i < n, (i + days.getD i 0 : ℤ) ≤ intMax) (hnmax : (n : ℤ) ≤ intMax) (hi : i ≤ n)
    (h : Holds (Q.contents pq) i ((trees apples days n).stock q i)) :
    ∃ pq', growLoop Q apples days n i pq (Goods.consumed q i) =
        pure ((n : ℤ), pq', (Goods.consumed q n : ℤ)) ∧
      Holds (Q.contents pq') n ((trees apples days n).stock q n) := by
  obtain ⟨m, hm⟩ := Nat.exists_eq_add_of_le hi
  induction m generalizing i pq with
  | zero =>
    obtain rfl : n = i := hm
    exact ⟨pq, by rw [growLoop, if_neg (lt_irrefl _)], h⟩
  | succ m ih =>
    have hin : i < n := by omega
    obtain ⟨pq₁, hpop, h₁, hlt, -⟩ := popLoop_eq h
    have hday : nth days i = pure (days.getD i 0) := nth_getD (by omega) 0
    have hcount : nth apples i = pure (apples.getD i 0) := nth_getD (by omega) 0
    have hrotten : int (i + days.getD i 0) = pure (i + days.getD i 0 : ℤ) :=
      int_eq (by rw [intMin]; omega) (hmax i hin)
    rw [growLoop, if_pos (by omega), hpop, pure_bind, hday, pure_bind, hrotten, pure_bind, hcount,
      pure_bind]
    dsimp only
    -- the apples of the tree are put in the queue
    have hgrown : ∀ pq₂, pq₂ = (if apples.getD i 0 > 0 then
          Q.push pq₁ ((i : ℤ) + days.getD i 0, (apples.getD i 0 : ℤ)) else pq₁) →
        Holds (Q.contents pq₂) i ((trees apples days n).shelf q i) ∧
          ∀ x ∈ Q.contents pq₂, (i : ℤ) < x.1 := by
      rintro _ rfl
      split_ifs with hpos
      · rw [Q.contents_push]
        refine ⟨⟨fun x hx => ?_, fun e he => ?_⟩, fun x hx => ?_⟩
        · rcases Multiset.mem_cons.mp hx with rfl | hx
          · show 0 < ((apples.getD i 0 : ℕ) : ℤ)
            exact_mod_cast hpos
          · exact h₁.pos x hx
        · rw [amountAt_cons, h₁.eq e he, shelf_eq hq.permitted hin]
          dsimp only
          split_ifs <;> push_cast <;> omega
        · rcases Multiset.mem_cons.mp hx with rfl | hx
          · have hne : days.getD i 0 ≠ 0 := fun hz => by have := hdays i hz; omega
            show (i : ℤ) < i + days.getD i 0
            omega
          · exact hlt x hx
      · refine ⟨⟨h₁.pos, fun e he => ?_⟩, hlt⟩
        rw [h₁.eq e he, shelf_eq hq.permitted hin, show apples.getD i 0 = 0 by omega, ite_self,
          add_zero]
    obtain ⟨h₂, hlt₂⟩ := hgrown _ rfl
    obtain ⟨pq₃, heat, h₃⟩ := eatTop_eq hq h₂ hlt₂ (by omega)
    rw [heat, pure_bind]
    dsimp only
    rw [← Nat.cast_succ]
    exact ih (by omega) h₃ (by omega)

/-- **The second loop** eats what is left, for several days at once. -/
theorem restLoop_eq {b : ℕ} (hq : (trees apples days n).Eager q)
    (hb : ∀ i < n, i + days.getD i 0 ≤ b) (hbmax : (b : ℤ) ≤ intMax) (hni : n ≤ i) (hib : i ≤ b)
    (h : Holds (Q.contents pq) i ((trees apples days n).stock q i)) :
    restLoop Q i pq (Goods.consumed q i) = pure (Goods.consumed q b : ℤ) := by
  have hempty : ∀ {d}, n ≤ d → d ≤ b → ∀ {M}, Holds M d ((trees apples days n).stock q d) → M = 0 →
      Goods.consumed q d = Goods.consumed q b := by
    intro d hnd hdb M hM hzero
    have hrest := (hq.rest (start_lt hnd) (fun e he => by
      have heq := hM.eq e he
      rw [hzero, amountAt_zero] at heq
      exact_mod_cast heq.symm) (b - d)).1
    rw [Nat.add_sub_cancel' hdb] at hrest
    exact hrest.symm
  induction hk : (Q.contents pq).card using Nat.strong_induction_on generalizing pq i with
  | h k ih =>
    rw [restLoop]
    by_cases hzero : Q.contents pq = 0
    · rw [if_pos (PriorityQueue.isEmpty_iff.mpr hzero), hempty hni hib h hzero]
    · rw [if_neg (PriorityQueue.isEmpty_iff.not.mpr hzero)]
      obtain ⟨pq₁, hpop, h₁, hlt, hcard⟩ := popLoop_eq h
      rw [hpop, pure_bind]
      by_cases hzero₁ : Q.contents pq₁ = 0
      · rw [if_pos (PriorityQueue.isEmpty_iff.mpr hzero₁), hempty hni hib h₁ hzero₁]
      · obtain ⟨x, -, htop, hfirst, pq₂, hpop₂, hcons⟩ := Q.top_eq pq₁ hzero₁
        rw [hcons] at h₁ hlt hfirst
        obtain ⟨e, he, hie, hle, hmin⟩ := h₁.first hlt hfirst
        have hx := h₁.pos x (Multiset.mem_cons_self x _)
        have heb : e ≤ b := by
          by_contra hgt
          rw [stock_eq_zero fun j hj => by have := hb j hj; omega] at hle
          omega
        -- it eats on the days until the first apples are rotten or eaten
        obtain ⟨num, hnum⟩ := Int.eq_ofNat_of_zero_le (show 0 ≤ min (x.1 - i) x.2 by omega)
        obtain ⟨hcount, hstock⟩ := hq.several (start_lt hni) hmin (k := num) (by omega) (by omega)
        have hans : int (Goods.consumed q i + num) = pure (Goods.consumed q (i + num) : ℤ) :=
          int_consumed hcount (by omega)
        have hi : int (i + num) = pure ((i + num : ℕ) : ℤ) := by
          push_cast
          exact int_eq (by rw [intMin]; omega) (by omega)
        rw [if_neg (PriorityQueue.isEmpty_iff.not.mpr hzero₁), htop, pure_bind, hpop₂, pure_bind]
        dsimp only
        rw [hnum, hans, pure_bind, hi, pure_bind]
        rw [hcons, Multiset.card_cons] at hcard
        refine ih _ (by omega) (by omega) (by omega) ⟨fun y hy => ?_, fun e' he' => ?_⟩ rfl
        · exact h₁.pos y (Multiset.mem_cons_of_mem hy)
        · have heq := h₁.eq e' (by omega)
          have hs := hstock e'
          rw [amountAt_cons] at heq
          split_ifs at heq hs <;> omega

/-! ### The map -/

/-- **The map holds** the apples that are rotten on day `d` or later, and how many on each day. -/
def Maps (m : OrderedMap ℤ ℤ) (d : ℕ) (f : ℕ → ℕ) : Prop :=
  ∀ k : ℤ, m.val k = if (d : ℤ) ≤ k ∧ 0 < f k.toNat then some (f k.toNat : ℤ) else none

variable {m : OrderedMap ℤ ℤ} {g : ℕ → ℕ} {k : ℤ}

theorem Maps.val (h : Maps m d f) (he : d ≤ e) :
    m.val e = if 0 < f e then some (f e : ℤ) else none := by
  rw [h, Int.toNat_natCast]
  simp only [Nat.cast_le, he, true_and]

/-- An entry is read as the number of apples, also where there is none. -/
theorem Maps.index (h : Maps m d f) (he : d ≤ e) : m.val.index e 0 = f e := by
  rw [Map.index, h.val he]
  split_ifs with hpos
  · rfl
  · rw [Option.getD_none]
    omega

theorem Maps.mem_keys (h : Maps m d f) : k ∈ m.keys ↔ ∃ e : ℕ, k = e ∧ d ≤ e ∧ 0 < f e := by
  rw [m.mem_keys, h]
  constructor
  · intro hk
    split_ifs at hk with hpos
    · exact ⟨k.toNat, by omega, by omega, hpos.2⟩
    · exact absurd rfl hk
  · rintro ⟨e, rfl, hde, hpos⟩
    rw [Int.toNat_natCast, if_pos ⟨by omega, hpos⟩]
    exact Option.some_ne_none _

theorem Maps.congr (h : Maps m d f) (hf : ∀ e, d ≤ e → g e = f e) : Maps m d g := by
  intro k
  rw [h]
  by_cases hk : (d : ℤ) ≤ k
  · rw [hf k.toNat (by omega)]
  · rw [if_neg fun hp => hk hp.1, if_neg fun hp => hk hp.1]

/-- The number for one day is set. -/
theorem Maps.insert (h : Maps m d f) (he : d ≤ e) (hpos : 0 < g e)
    (hf : ∀ e', e' ≠ e → g e' = f e') : Maps (m.insert e (g e)) d g := by
  intro k
  show m.val.insert (e : ℤ) _ k = _
  by_cases hk : k = e
  · subst hk
    rw [Map.insert_self, Int.toNat_natCast, if_pos ⟨by omega, hpos⟩]
  · rw [Map.insert_of_ne _ _ hk, h]
    by_cases hdk : (d : ℤ) ≤ k
    · rw [hf k.toNat (by omega)]
    · rw [if_neg fun hp => hdk hp.1, if_neg fun hp => hdk hp.1]

/-- The number for one day is set to zero. -/
theorem Maps.erase (h : Maps m d f) (hzero : g e = 0) (hf : ∀ e', e' ≠ e → g e' = f e') :
    Maps (m.erase e) d g := by
  intro k
  show m.val.erase (e : ℤ) k = _
  by_cases hk : k = e
  · subst hk
    rw [Map.erase_self, Int.toNat_natCast, if_neg (by omega)]
  · rw [Map.erase_of_ne _ hk, h]
    by_cases hdk : (d : ℤ) ≤ k
    · rw [hf k.toNat (by omega)]
    · rw [if_neg fun hp => hdk hp.1, if_neg fun hp => hdk hp.1]

/-- **The apples of a day overflow nothing**: neither the day on which they are rotten, nor the
number of apples that are rotten then. -/
def GrowFits (apples days : List ℕ) (n : ℕ) (q : ℕ → Option ℕ) (d : ℕ) : Prop :=
  d < n → 0 < apples.getD d 0 → (d + days.getD d 0 : ℤ) ≤ intMax ∧
    ((trees apples days n).stock q d (d + days.getD d 0) + apples.getD d 0 : ℤ) ≤ intMax

/-- **The apples of a day are put in the map** exactly if they overflow nothing. -/
theorem grow_iff (hq : (trees apples days n).Permitted q) (hn : n ≤ apples.length)
    (hlen : apples.length = days.length) (h : Maps m d ((trees apples days n).stock q d)) :
    ∃ m', Maps m' d ((trees apples days n).shelf q d) ∧
      ∀ x, grow apples days n d m = pure x ↔ GrowFits apples days n q d ∧ m' = x := by
  rw [grow]
  by_cases hdn : d < n
  · have hday : nth days d = pure (days.getD d 0) := nth_getD (by omega) 0
    have hcount : nth apples d = pure (apples.getD d 0) := nth_getD (by omega) 0
    rw [if_pos (by omega), hcount, pure_bind]
    by_cases hpos : 0 < apples.getD d 0
    · rw [if_pos hpos, hday, pure_bind]
      -- the entry is the one of the day on which the apples are rotten
      have hde : d ≤ d + days.getD d 0 := Nat.le_add_right d _
      have hindex := h.index hde
      have hshelf : (trees apples days n).shelf q d (d + days.getD d 0) =
          (trees apples days n).stock q d (d + days.getD d 0) + apples.getD d 0 := by
        rw [shelf_eq hq hdn, if_pos rfl]
      refine ⟨_, h.insert (g := (trees apples days n).shelf q d) hde (by omega) fun e he => ?_,
        fun x => ?_⟩
      · rw [shelf_eq hq hdn, if_neg (Ne.symm he), add_zero]
      · simp only [Exec.bind_eq_pure, int_eq_pure, Exec.pure_inj, GrowFits, hdn, hpos, true_imp_iff]
        rw [hshelf]
        push_cast at hindex ⊢
        have hday : intMin ≤ (d : ℤ) + days.getD d 0 := by rw [intMin]; omega
        have hsum : intMin ≤ ((trees apples days n).stock q d (d + days.getD d 0) : ℤ) +
            apples.getD d 0 := by rw [intMin]; omega
        rw [hindex]
        simp only [hday, hsum, true_and, and_true, and_assoc]
    · rw [if_neg hpos]
      refine ⟨m, h.congr fun e _ => ?_, fun x => ?_⟩
      · rw [shelf_eq hq hdn, show apples.getD d 0 = 0 by omega, ite_self, add_zero]
      · rw [Exec.pure_inj]
        exact (and_iff_right fun _ hp => absurd hp hpos).symm
  · rw [if_neg (by omega)]
    refine ⟨m, h.congr fun e _ => Goods.shelf_eq_stock (start_lt (by omega)), fun x => ?_⟩
    rw [Exec.pure_inj]
    exact (and_iff_right fun hlt => absurd hlt hdn).symm

/-- No entry lies between an iterator and the next one. -/
theorem val_eq_none {key : ℤ} (hlt : key < k) (hk : ¬ m.next key ≤ k) : m.val k = none := by
  by_contra hne
  exact hk (OrderedMap.next_le ((m.mem_keys k).mpr hne) hlt)

/-- Moving an iterator on leaves less behind it. -/
theorem card_next_lt {key : ℤ} {m' : OrderedMap ℤ ℤ} (hsub : m'.keys ⊆ m.keys)
    (hkey : key ∈ m.keys) : (m'.keys.filter fun k : ℤ => m'.next key ≤ (k : WithTop ℤ)).card <
      (m.keys.filter fun k : ℤ => (key : WithTop ℤ) ≤ (k : WithTop ℤ)).card := by
  refine Finset.card_lt_card (Finset.ssubset_iff_of_subset ?_ |>.mpr ⟨key, ?_, ?_⟩)
  · intro k hk
    obtain ⟨hmem, hle⟩ := Finset.mem_filter.mp hk
    exact Finset.mem_filter.mpr ⟨hsub hmem, ((OrderedMap.lt_next m' key).trans_le hle).le⟩
  · exact Finset.mem_filter.mpr ⟨hkey, le_rfl⟩
  · intro hk
    exact absurd (Finset.mem_filter.mp hk).2 (OrderedMap.lt_next m' key).not_ge

/-- An entry has been looked at, and the loop has gone on behind it: what the whole loop does. -/
theorem val_of_next {key i : ℤ} {m₁ m' : OrderedMap ℤ ℤ}
    (hother : ∀ k, k ≠ key → m₁.val k = m.val k)
    (hself : m₁.val key = if key ≤ i then none else m.val key)
    (hval : ∀ k : ℤ, m'.val k = if k ≤ i ∧ m₁.next key ≤ k then none else m₁.val k) (k : ℤ) :
    m'.val k = if k ≤ i ∧ (key : WithTop ℤ) ≤ k then none else m.val k := by
  have hlt := OrderedMap.lt_next m₁ key
  rw [hval]
  rcases lt_trichotomy k key with hk | rfl | hk
  · have hlt' : (k : WithTop ℤ) < key := WithTop.coe_lt_coe.mpr hk
    rw [if_neg fun h => (hlt'.trans hlt).not_ge h.2, if_neg fun h => hlt'.not_ge h.2,
      hother k hk.ne]
  · rw [if_neg fun h => hlt.not_ge h.2, hself]
    simp only [le_refl, and_true]
  · have hle : (key : WithTop ℤ) ≤ k := WithTop.coe_le_coe.mpr hk.le
    by_cases hnext : m₁.next key ≤ k
    · simp only [hnext, hle, and_true, hother k hk.ne']
    · have hnone := val_eq_none hk hnext
      rw [if_neg fun h => hnext h.2, hnone, ← hother k hk.ne', hnone, ite_self]

/-- **The loop erases the entries** of days that have come, from the iterator on. -/
theorem eraseLoop_eq (i : ℤ) {p : WithTop ℤ} (hp : ∀ key : ℤ, p = key → key ∈ m.keys) :
    ∃ m', eraseLoop i p m = pure m' ∧
      ∀ k : ℤ, m'.val k = if k ≤ i ∧ p ≤ k then none else m.val k := by
  induction hc : (m.keys.filter fun k : ℤ => p ≤ (k : WithTop ℤ)).card using
    Nat.strong_induction_on generalizing m p with
  | h c ih =>
    rcases p with _ | key
    · refine ⟨m, by rw [eraseLoop], fun k => ?_⟩
      rw [if_neg fun h => (WithTop.coe_lt_top k).not_ge h.2]
    · have hkey : key ∈ m.keys := hp key rfl
      rw [eraseLoop]
      dsimp only
      by_cases hi : i ≥ key
      · have hsub : (m.erase key).keys ⊆ m.keys := Finset.erase_subset key m.keys
        obtain ⟨m', hrun, hval⟩ := ih _ (hc ▸ card_next_lt hsub hkey)
          (fun k hk => (OrderedMap.mem_of_next hk).1) rfl
        refine ⟨m', by rw [if_pos hi, hrun], val_of_next (fun k hk => ?_) ?_ hval⟩
        · exact Map.erase_of_ne _ hk
        · rw [if_pos hi]
          exact Map.erase_self _ _
      · obtain ⟨m', hrun, hval⟩ := ih _ (hc ▸ card_next_lt (Finset.Subset.refl _) hkey)
          (fun k hk => (OrderedMap.mem_of_next hk).1) rfl
        refine ⟨m', by rw [if_neg hi, hrun], val_of_next (fun k _ => rfl) ?_ hval⟩
        rw [if_neg hi]

/-- **The rotten apples are removed.** -/
theorem Maps.eraseLoop (h : Maps m d f) :
    ∃ m', EatenApples.eraseLoop d m.first m = pure m' ∧ Maps m' (d + 1) f := by
  obtain ⟨m', hrun, hval⟩ := eraseLoop_eq d fun key hk => OrderedMap.mem_of_first hk
  refine ⟨m', hrun, fun k => ?_⟩
  rw [hval, h]
  by_cases hk : m.first ≤ k
  · simp only [hk, and_true]
    split_ifs <;> first | rfl | omega
  · have hnone : m.val k = none := by
      by_contra hne
      exact hk (OrderedMap.first_le ((m.mem_keys k).mpr hne))
    have hnot : ¬ ((d : ℤ) ≤ k ∧ 0 < f k.toNat) := by
      intro hp
      rw [h, if_pos hp] at hnone
      cases hnone
    rw [if_neg fun hp => hk hp.2, if_neg hnot, if_neg fun hp => hnot ⟨by omega, hp.2⟩]

/-- **One apple is eaten**, as by an eager plan. -/
theorem eatFirst_eq (hq : (trees apples days n).Eager q)
    (h : Maps m (d + 1) ((trees apples days n).shelf q d)) (hd : (d : ℤ) < intMax) :
    ∃ m', eatFirst m (Goods.consumed q d) = pure (m', (Goods.consumed q (d + 1) : ℤ)) ∧
      Maps m' (d + 1) ((trees apples days n).stock q (d + 1)) := by
  rw [eatFirst]
  rcases hfirst : m.first with _ | k
  · have hzero : ∀ e, d < e → (trees apples days n).shelf q d e = 0 := by
      intro e he
      by_contra hne
      have hmem : (e : ℤ) ∈ m.keys := h.mem_keys.mpr ⟨e, rfl, he, Nat.pos_of_ne_zero hne⟩
      have hle := OrderedMap.first_le hmem
      rw [hfirst] at hle
      exact (WithTop.coe_lt_top (e : ℤ)).not_ge hle
    obtain ⟨hcount, hstock⟩ := hq.idle hzero
    refine ⟨m, by rw [hcount], h.congr fun e _ => hstock e⟩
  · obtain ⟨e, rfl, hde, hpos⟩ := h.mem_keys.mp (OrderedMap.mem_of_first hfirst)
    have hmin : ∀ e', d < e' → 0 < (trees apples days n).shelf q d e' → e ≤ e' := by
      intro e' hde' hpos'
      have hle := OrderedMap.first_le (h.mem_keys.mpr ⟨e', rfl, hde', hpos'⟩)
      rw [hfirst] at hle
      exact_mod_cast WithTop.coe_le_coe.mp hle
    obtain ⟨hcount, hstock⟩ := hq.eats hde hpos hmin
    have hother : ∀ e', e' ≠ e →
        (trees apples days n).stock q (d + 1) e' = (trees apples days n).shelf q d e' := by
      intro e' he'
      rw [← hstock e', if_neg (Ne.symm he'), add_zero]
    have hself := hstock e
    rw [if_pos rfl] at hself
    have hindex : m.val.index e 0 = (trees apples days n).shelf q d e := h.index hde
    dsimp only
    have hans := int_consumed hcount (by omega)
    rw [Nat.cast_one] at hans
    rw [hindex, hans]
    refine ⟨_, rfl, ?_⟩
    split_ifs with hsecond
    · have hval : ((trees apples days n).shelf q d e : ℤ) - 1 =
          (trees apples days n).stock q (d + 1) e := by omega
      rw [hval]
      exact h.insert hde (by omega) hother
    · exact h.erase (by omega) hother

/-- **The loop ends** behind the last tree and without any apples. Then an eager plan eats nothing
more, until any day `b`. -/
theorem dayLoop_done {b : ℕ} (hq : (trees apples days n).Eager q) (hd : d ≤ b)
    (h : Maps m d ((trees apples days n).stock q d)) (hdone : ¬ ((d : ℤ) < n ∨ m.keys ≠ ∅))
    (r : ℤ) :
    dayLoop apples days n d m (Goods.consumed q d) = pure r ↔
      (∀ t, d ≤ t → GrowFits apples days n q t) ∧
        (∀ e, b ≤ e → (trees apples days n).stock q b e = 0) ∧ (Goods.consumed q b : ℤ) = r := by
  rw [dayLoop, if_neg hdone, Exec.pure_inj]
  rw [not_or, not_not] at hdone
  have hzero : ∀ e, d ≤ e → (trees apples days n).stock q d e = 0 := by
    intro e he
    by_contra hne
    have hmem : (e : ℤ) ∈ m.keys := h.mem_keys.mpr ⟨e, rfl, he, Nat.pos_of_ne_zero hne⟩
    rw [hdone.2] at hmem
    exact absurd hmem (Finset.notMem_empty _)
  obtain ⟨k, rfl⟩ := Nat.exists_eq_add_of_le hd
  obtain ⟨hcount, hstock⟩ := hq.rest (start_lt (by omega)) (fun e he => hzero e he.le) k
  rw [hcount]
  constructor
  · rintro rfl
    exact ⟨fun t ht hlt => by omega, fun e he => (hstock e).trans (hzero e (by omega)), rfl⟩
  · exact fun hr => hr.2.2

/-- On the last day that an `int` counts the loop does not go on. -/
theorem dayLoop_last {i ans r : ℤ} (hi : i = intMax) (hgo : i < n ∨ m.keys ≠ ∅) :
    dayLoop apples days n i m ans ≠ pure r := by
  rw [dayLoop, if_pos hgo]
  intro h
  obtain ⟨m₁, -, h⟩ := Exec.bind_eq_pure.mp h
  obtain ⟨m₂, -, h⟩ := Exec.bind_eq_pure.mp h
  obtain ⟨⟨m₃, ans'⟩, -, h⟩ := Exec.bind_eq_pure.mp h
  obtain ⟨i', hi', -⟩ := Exec.bind_eq_pure.mp h
  have hmax := (int_eq_pure.mp hi').1.2
  omega

/-- **The loop returns** exactly if no apples overflow anything and none is left on the last day `b`
that an `int` counts, and it follows an eager plan. -/
theorem dayLoop_iff {b : ℕ} (hb : (b : ℤ) = intMax) (hq : (trees apples days n).Eager q)
    (hn : n ≤ apples.length) (hlen : apples.length = days.length) (hnb : n ≤ b) (hd : d ≤ b)
    (h : Maps m d ((trees apples days n).stock q d)) (r : ℤ) :
    dayLoop apples days n d m (Goods.consumed q d) = pure r ↔
      (∀ t, d ≤ t → GrowFits apples days n q t) ∧
        (∀ e, b ≤ e → (trees apples days n).stock q b e = 0) ∧ (Goods.consumed q b : ℤ) = r := by
  obtain ⟨c, hc⟩ := Nat.exists_eq_add_of_le hd
  induction c generalizing d m with
  | zero =>
    obtain rfl : b = d := hc
    by_cases hgo : (b : ℤ) < n ∨ m.keys ≠ ∅
    · refine iff_of_false (dayLoop_last hb hgo) ?_
      rintro ⟨-, hzero, -⟩
      obtain ⟨k, hk⟩ := Finset.nonempty_iff_ne_empty.mpr (hgo.resolve_left (by omega))
      obtain ⟨e, -, hbe, hpos⟩ := h.mem_keys.mp hk
      have := hzero e hbe
      omega
    · exact dayLoop_done hq hd h hgo r
  | succ c ih =>
    by_cases hgo : (d : ℤ) < n ∨ m.keys ≠ ∅
    · obtain ⟨m₁, h₁, hgrow⟩ := grow_iff hq.permitted hn hlen h
      obtain ⟨m₂, herase, h₂⟩ := h₁.eraseLoop
      obtain ⟨m₃, heat, h₃⟩ := eatFirst_eq hq h₂ (by omega)
      have hi : int (d + 1) = pure ((d + 1 : ℕ) : ℤ) := by
        push_cast
        exact int_eq (by rw [intMin]; omega) (by omega)
      have hrest := ih (by omega) h₃ (by omega)
      have hfrom : (∀ t, d ≤ t → GrowFits apples days n q t) ↔
          GrowFits apples days n q d ∧ ∀ t, d + 1 ≤ t → GrowFits apples days n q t := by
        constructor
        · exact fun hall => ⟨hall d le_rfl, fun t ht => hall t (by omega)⟩
        · rintro ⟨hd, hall⟩ t ht
          rcases Nat.eq_or_lt_of_le ht with rfl | hlt
          · exact hd
          · exact hall t hlt
      rw [dayLoop, if_pos hgo, Exec.bind_eq_pure, hfrom, and_assoc, ← hrest]
      constructor
      · rintro ⟨x, hx, hrun⟩
        obtain ⟨hfits, rfl⟩ := (hgrow x).mp hx
        rw [herase, pure_bind, heat, pure_bind] at hrun
        dsimp only at hrun
        rw [hi, pure_bind] at hrun
        exact ⟨hfits, hrun⟩
      · rintro ⟨hfits, hrun⟩
        refine ⟨m₁, (hgrow m₁).mpr ⟨hfits, rfl⟩, ?_⟩
        rw [herase, pure_bind, heat, pure_bind]
        dsimp only
        rw [hi, pure_bind]
        exact hrun
    · exact dayLoop_done hq hd h hgo r

/-! ### Both versions -/

/-- The number of trees that are looked at: as many as `n` says. -/
def seen (apples : List ℕ) : ℕ := (size apples).toNat

theorem seen_le (apples : List ℕ) : seen apples ≤ apples.length :=
  toNat_intOfSize_le apples.length

theorem seen_le_intMax (apples : List ℕ) : (seen apples : ℤ) ≤ intMax :=
  toNat_intOfSize_le_intMax apples.length

/-- The last day that an `int` counts. -/
def lastDay : ℕ := 2147483647

theorem lastDay_eq : (lastDay : ℤ) = intMax := rfl

/-- All trees are looked at, if their number is an `int`. -/
theorem seen_eq (h : (apples.length : ℤ) ≤ intMax) : seen apples = apples.length :=
  toNat_intOfSize h

/-- **The queue** follows an eager plan, if no day on which apples are rotten overflows. -/
theorem eatenApples_eq (Q : PriorityQueue (ℤ × ℤ) Greater)
    (hq : (trees apples days (seen apples)).Eager q) (hlen : apples.length = days.length)
    (hdays : ∀ i, days.getD i 0 = 0 → apples.getD i 0 = 0)
    (hmax : ∀ i < seen apples, (i + days.getD i 0 : ℤ) ≤ intMax) :
    eatenApples Q apples days = pure (Goods.consumed q lastDay : ℤ) := by
  have hlast : (lastDay : ℤ) = intMax := lastDay_eq
  have hnmax := seen_le_intMax apples
  have hempty : Holds (Q.contents Q.empty) 0 ((trees apples days (seen apples)).stock q 0) := by
    rw [Q.contents_empty]
    refine ⟨fun x hx => absurd hx (Multiset.notMem_zero x), fun e _ => ?_⟩
    rw [amountAt_zero, Goods.stock_zero, Nat.cast_zero]
  obtain ⟨pq, hgrow, h⟩ := growLoop_eq hq (seen_le apples) hlen hdays hmax hnmax (Nat.zero_le _)
    hempty
  have hrest := restLoop_eq hq (fun i hi => by have := hmax i hi; omega) hlast.le le_rfl
    (by omega) h
  have hsize : growLoop Q apples days (size apples) 0 Q.empty 0 =
      growLoop Q apples days (seen apples) 0 Q.empty 0 := by
    by_cases hneg : size apples < 0
    · have hzero : seen apples = 0 := Int.toNat_of_nonpos hneg.le
      rw [growLoop, if_neg (by omega), hzero, growLoop, if_neg (by simp)]
    · rw [show (seen apples : ℤ) = size apples from Int.toNat_of_nonneg (by omega)]
  rw [Goods.consumed_zero, Nat.cast_zero] at hgrow
  rw [eatenApples, hsize, hgrow, pure_bind]
  exact hrest

/-- **The map** follows an eager plan, and returns exactly if nothing overflows. -/
theorem eatenApplesMy_iff (hq : (trees apples days (seen apples)).Eager q)
    (hlen : apples.length = days.length) (r : ℤ) : eatenApplesMy apples days = pure r ↔
      (∀ t, GrowFits apples days (seen apples) q t) ∧
        (∀ e, lastDay ≤ e → (trees apples days (seen apples)).stock q lastDay e = 0) ∧
          (Goods.consumed q lastDay : ℤ) = r := by
  have hlast : (lastDay : ℤ) = intMax := lastDay_eq
  have hnmax := seen_le_intMax apples
  have hempty : Maps OrderedMap.empty 0 ((trees apples days (seen apples)).stock q 0) := by
    intro k
    rw [Goods.stock_zero, if_neg fun h => lt_irrefl 0 h.2]
    rfl
  have hiff := dayLoop_iff lastDay_eq hq (seen_le apples) hlen (by omega) (Nat.zero_le _) hempty r
  have hsize : dayLoop apples days (size apples) 0 OrderedMap.empty 0 =
      dayLoop apples days (seen apples) 0 OrderedMap.empty 0 := by
    by_cases hneg : size apples < 0
    · have hzero : seen apples = 0 := Int.toNat_of_nonpos hneg.le
      have hkeys : (OrderedMap.empty : OrderedMap ℤ ℤ).keys = ∅ := rfl
      rw [dayLoop, if_neg (by simp [hkeys, hneg.le]), hzero, dayLoop, if_neg (by simp [hkeys])]
    · rw [show (seen apples : ℤ) = size apples from Int.toNat_of_nonneg (by omega)]
  rw [Goods.consumed_zero, Nat.cast_zero, ← hsize] at hiff
  rw [eatenApplesMy, hiff]
  simp only [Nat.zero_le, true_imp_iff]

/-- **Nothing overflows** of the first `n` trees, where `q` says what is eaten: no day on which
apples are rotten, no number of apples that are rotten on the same day, and in the end no day, as no
apples are left on the last one that an `int` counts. -/
structure Fits (apples days : List ℕ) (n : ℕ) (q : ℕ → Option ℕ) : Prop where
  day : ∀ i < n, (i + days.getD i 0 : ℤ) ≤ intMax
  sum : ∀ i < n, 0 < apples.getD i 0 →
    ((trees apples days n).stock q i (i + days.getD i 0) + apples.getD i 0 : ℤ) ≤ intMax
  last : (trees apples days n).stock q lastDay lastDay = 0

theorem fits_iff (hn : (n : ℤ) ≤ intMax) (hdays : ∀ i, apples.getD i 0 = 0 → days.getD i 0 = 0) :
    Fits apples days n q ↔ (∀ t, GrowFits apples days n q t) ∧
      ∀ e, lastDay ≤ e → (trees apples days n).stock q lastDay e = 0 := by
  have hlast : (lastDay : ℤ) = intMax := lastDay_eq
  constructor
  · intro h
    refine ⟨fun t ht hpos => ⟨h.day t ht, h.sum t ht hpos⟩, fun e he => ?_⟩
    rcases Nat.eq_or_lt_of_le he with rfl | hlt
    · exact h.last
    · exact stock_eq_zero fun i hi => by have := h.day i hi; omega
  · rintro ⟨hgrow, hzero⟩
    refine ⟨fun i hi => ?_, fun i hi hpos => (hgrow i hi hpos).2, hzero lastDay le_rfl⟩
    rcases Nat.eq_zero_or_pos (apples.getD i 0) with hnone | hpos
    · rw [hdays i hnone]
      omega
    · exact (hgrow i hi hpos).1

/-- Few apples that do not keep until the last day overflow nothing. -/
theorem fits_of_lt (hq : (trees apples days n).Permitted q)
    (hday : ∀ i < n, (i + days.getD i 0 : ℤ) < intMax)
    (hsum : ((∑ i ∈ Finset.range n, apples.getD i 0 : ℕ) : ℤ) ≤ intMax) : Fits apples days n q where
  day := fun i hi => (hday i hi).le
  sum := fun i hi _ => by
    have hshelf := shelf_eq hq (e := i + days.getD i 0) hi
    have hle := (trees apples days n).shelf_le q i (i + days.getD i 0)
    rw [if_pos rfl] at hshelf
    have hamount : ∑ i ∈ (trees apples days n).all, (trees apples days n).amount i =
      ∑ i ∈ Finset.range n, apples.getD i 0 := rfl
    omega
  last := stock_eq_zero fun i hi => by
    have hlt := hday i hi
    have hlast : (lastDay : ℤ) = intMax := lastDay_eq
    omega

/-- Of more trees no fewer apples can be eaten. -/
theorem numbers_mono {n' : ℕ} (h : n ≤ n') : numbers apples days n ⊆ numbers apples days n' := by
  rintro k ⟨p, hp, hk⟩
  refine ⟨p, ⟨fun d i hi => ?_, hp.used_le⟩, hk⟩
  obtain ⟨hmem, hwithin⟩ := hp.within d i hi
  exact ⟨Finset.mem_range.mpr ((Finset.mem_range.mp hmem).trans_le h), hwithin⟩

/-- **Both versions return the greatest number** of apples that can be eaten exactly if nothing
overflows for an eager eater, and the trees that are looked at are enough. -/
theorem eatenApples_iff (Q : PriorityQueue (ℤ × ℤ) Greater) (hlen : apples.length = days.length)
    (hzero : ∀ i < apples.length, days.getD i 0 = 0 ↔ apples.getD i 0 = 0) :
    Correct Q apples days ↔
      (∀ q, (trees apples days (seen apples)).Eager q → Fits apples days (seen apples) q) ∧
        ∀ k ∈ numbers apples days apples.length, ∃ k' ∈ numbers apples days (seen apples),
          k ≤ k' := by
  have hzero' : ∀ i, days.getD i 0 = 0 ↔ apples.getD i 0 = 0 := by
    intro i
    by_cases hi : i < apples.length
    · exact hzero i hi
    · exact iff_of_true (List.getD_eq_default _ _ (by omega)) (List.getD_eq_default _ _ (by omega))
  have hfits : ∀ q, Fits apples days (seen apples) q ↔ _ := fun q =>
    fits_iff (q := q) (seen_le_intMax apples) fun i => (hzero' i).mpr
  have hlast : (lastDay : ℤ) = intMax := lastDay_eq
  have hgreatest : ∀ q, (trees apples days (seen apples)).Eager q →
      Fits apples days (seen apples) q →
        IsGreatest (numbers apples days (seen apples)) (Goods.consumed q lastDay) := by
    intro q hq h
    have hnmax := seen_le_intMax apples
    exact isGreatest_consumed hq (by omega) fun i hi => by have := h.day i hi; omega
  constructor
  · rintro ⟨k, -, hmy, hk⟩
    have hreturns : ∀ q, (trees apples days (seen apples)).Eager q →
        Fits apples days (seen apples) q ∧ Goods.consumed q lastDay = k := by
      intro q hq
      obtain ⟨hgrow, hleft, hcount⟩ := (eatenApplesMy_iff hq hlen k).mp hmy
      exact ⟨(hfits q).mpr ⟨hgrow, hleft⟩, by exact_mod_cast hcount⟩
    refine ⟨fun q hq => (hreturns q hq).1, fun k' hk' => ?_⟩
    obtain ⟨q, hq⟩ := (trees apples days (seen apples)).exists_eager
    obtain ⟨h, rfl⟩ := hreturns q hq
    exact ⟨_, (hgreatest q hq h).1, hk.2 hk'⟩
  · rintro ⟨hall, henough⟩
    obtain ⟨q, hq⟩ := (trees apples days (seen apples)).exists_eager
    have h := hall q hq
    obtain ⟨hgrow, hleft⟩ := (hfits q).mp h
    refine ⟨Goods.consumed q lastDay, eatenApples_eq Q hq hlen (fun i => (hzero' i).mp) h.day,
      (eatenApplesMy_iff hq hlen _).mpr ⟨hgrow, hleft, rfl⟩, ?_, fun k hk => ?_⟩
    · exact numbers_mono (seen_le apples) (hgreatest q hq h).1
    · obtain ⟨k', hk', hle⟩ := henough k hk
      exact hle.trans ((hgreatest q hq h).2 hk')

/-- The five trees of `main`. -/
theorem eatenApples_iff_five :
    Correct (PriorityQueue.ofList Greater) [1, 2, 3, 5, 2] [3, 2, 1, 4, 2] := by
  have hseen : seen [1, 2, 3, 5, 2] = 5 := seen_eq (by decide)
  have hzero : ∀ i < [1, 2, 3, 5, 2].length,
      [3, 2, 1, 4, 2].getD i 0 = 0 ↔ [1, 2, 3, 5, 2].getD i 0 = 0 := by decide
  have hlen : [1, 2, 3, 5, 2].length = [3, 2, 1, 4, 2].length := rfl
  refine (eatenApples_iff _ hlen hzero).mpr ⟨fun q hq => ?_, fun k hk => ⟨k, ?_, le_rfl⟩⟩
  · refine fits_of_lt hq.permitted ?_ ?_
    · rw [hseen]
      decide
    · rw [hseen]
      decide
  · rw [hseen]
    exact hk

/-- **A tree on the second day** whose apples keep for `INT_MAX` days: the day on which they are
rotten overflows. -/
theorem not_eatenApples : ¬ ∀ (Q : PriorityQueue (ℤ × ℤ) Greater) (apples days : List ℕ),
    apples.length = days.length →
    (∀ i < apples.length, days.getD i 0 = 0 ↔ apples.getD i 0 = 0) → Correct Q apples days := by
  intro h
  obtain ⟨k, -, hmy, -⟩ := h (PriorityQueue.ofList Greater) [0, 1] [0, 2147483647] rfl (by decide)
  have hseen : seen [0, 1] = 2 := seen_eq (by decide)
  obtain ⟨q, hq⟩ := (trees [0, 1] [0, 2147483647] (seen [0, 1])).exists_eager
  obtain ⟨hgrow, -⟩ := (eatenApplesMy_iff hq rfl k).mp hmy
  have hday := (hgrow 1 (by rw [hseen]; decide) (by decide)).1
  exact absurd hday (by decide)

end EatenApples

end Candcpp
