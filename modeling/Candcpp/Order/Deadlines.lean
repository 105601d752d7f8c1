import Mathlib

/-!
# Goods that do not keep

Goods of several kinds, each with an amount that is there from a day on until another day, before
which it must be consumed (`Candcpp.Goods`). A plan says of which kind one unit is consumed on each
day, and must not take what is not there (`Candcpp.Goods.Permitted`). An eager plan consumes
something whenever there is something, and then what is to be consumed first
(`Candcpp.Goods.Eager`). Such a plan exists (`Candcpp.Goods.exists_eager`), and **no plan consumes
more on any number of days** (`Candcpp.Goods.Eager.consumed_le`): by each day an eager plan has
consumed as many of the goods that must be consumed before any later day as every other plan.

What an eager plan leaves, of all kinds with one last day together, does not depend on how it
chooses between them. It is the `Candcpp.Goods.stock` in the morning and the `Candcpp.Goods.shelf`
once the goods of the day are there; a day on which nothing is left to consume is
`Candcpp.Goods.Eager.idle`, and any other is `Candcpp.Goods.Eager.eats`.
-/

namespace Candcpp

/-- Goods of several kinds: how much there is of each, from which day on, and until which day. -/
structure Goods (ι : Type) where
  all : Finset ι
  amount : ι → ℕ
  start : ι → ℕ
  stop : ι → ℕ

namespace Goods

variable {ι : Type} {g : Goods ι} {p q : ℕ → Option ι} {d e v : ℕ} {i j : ι}

/-! ### Plans -/

/-- How much a plan consumes before the day `d`. -/
def consumed (p : ℕ → Option ι) (d : ℕ) : ℕ := Nat.count (fun t => p t ≠ none) d

@[simp] theorem consumed_zero (p : ℕ → Option ι) : consumed p 0 = 0 := Nat.count_zero _

theorem consumed_succ (p : ℕ → Option ι) (d : ℕ) :
    consumed p (d + 1) = consumed p d + if p d ≠ none then 1 else 0 := Nat.count_succ _ d

theorem consumed_le (p : ℕ → Option ι) (d : ℕ) : consumed p d ≤ d := Nat.count_le _

theorem consumed_mono (p : ℕ → Option ι) (h : d ≤ e) : consumed p d ≤ consumed p e :=
  Nat.count_monotone _ h

variable [DecidableEq ι]

/-- How much of a kind a plan consumes before the day `d`. -/
def used (p : ℕ → Option ι) (d : ℕ) (i : ι) : ℕ := Nat.count (fun t => p t = some i) d

/-- **What a plan may do**: it consumes what is there on the day, and no more than there is. -/
structure Permitted (g : Goods ι) (p : ℕ → Option ι) : Prop where
  within : ∀ d i, p d = some i → i ∈ g.all ∧ g.start i ≤ d ∧ d < g.stop i
  used_le : ∀ d i, used p d i ≤ g.amount i

/-- Of the kind `i` something is left that can be consumed on the day `d`. -/
structure Available (g : Goods ι) (p : ℕ → Option ι) (d : ℕ) (i : ι) : Prop where
  mem : i ∈ g.all
  start_le : g.start i ≤ d
  lt_stop : d < g.stop i
  used_lt : used p d i < g.amount i

/-- The choice of the day: nothing if there is nothing, and otherwise what is to be consumed
first. -/
structure Chosen (g : Goods ι) (p : ℕ → Option ι) (d : ℕ) (o : Option ι) : Prop where
  available : ∀ i, o = some i → g.Available p d i
  first : ∀ i, o = some i → ∀ j, g.Available p d j → g.stop i ≤ g.stop j
  none : o = none → ∀ j, ¬ g.Available p d j

/-- **An eager plan** makes this choice on each day. -/
def Eager (g : Goods ι) (p : ℕ → Option ι) : Prop := ∀ d, g.Chosen p d (p d)

@[simp] theorem used_zero (p : ℕ → Option ι) (i : ι) : used p 0 i = 0 := Nat.count_zero _

theorem used_succ (p : ℕ → Option ι) (d : ℕ) (i : ι) :
    used p (d + 1) i = used p d i + if p d = some i then 1 else 0 := Nat.count_succ _ d

theorem used_mono (p : ℕ → Option ι) (i : ι) (h : d ≤ e) : used p d i ≤ used p e i :=
  Nat.count_monotone _ h

/-- Before there is something, nothing is consumed. -/
theorem Permitted.used_eq_zero (h : g.Permitted p) (hd : d ≤ g.start i) : used p d i = 0 := by
  refine Nat.count_iff_forall_not.mpr fun t ht heq => ?_
  have hstart := (h.within t i heq).2.1
  omega

/-- **An eager plan** is one that may be followed. -/
theorem Eager.permitted (h : g.Eager p) : g.Permitted p where
  within := fun d i hi =>
    have ha := (h d).available i hi
    ⟨ha.mem, ha.start_le, ha.lt_stop⟩
  used_le := fun d i => by
    induction d with
    | zero => simp
    | succ d ih =>
      rw [used_succ]
      split_ifs with hi
      · exact ((h d).available i hi).used_lt
      · exact ih

/-! ### There is an eager plan -/

/-- There is a choice for the day, whatever has been consumed. -/
theorem exists_chosen (g : Goods ι) (p : ℕ → Option ι) (d : ℕ) : ∃ o, g.Chosen p d o := by
  classical
  by_cases hne : (g.all.filter fun i => g.Available p d i).Nonempty
  · obtain ⟨i, hi, hmin⟩ := Finset.exists_min_image _ g.stop hne
    refine ⟨some i, ?_, ?_, by rintro ⟨⟩⟩
    · rintro _ ⟨⟩
      exact (Finset.mem_filter.mp hi).2
    · rintro _ ⟨⟩ j hj
      exact hmin j (Finset.mem_filter.mpr ⟨hj.mem, hj⟩)
  · refine ⟨none, by rintro _ ⟨⟩, by rintro _ ⟨⟩, fun _ j hj => ?_⟩
    exact hne ⟨j, Finset.mem_filter.mpr ⟨hj.mem, hj⟩⟩

theorem used_congr (h : ∀ t < d, p t = q t) : used p d i = used q d i :=
  le_antisymm (Nat.count_mono_left fun t ht hi => (h t ht).symm.trans hi)
    (Nat.count_mono_left fun t ht hi => (h t ht).trans hi)

/-- The choice depends on the days before only. -/
theorem Chosen.congr {o : Option ι} (hc : g.Chosen p d o) (h : ∀ t < d, p t = q t) :
    g.Chosen q d o := by
  have hiff : ∀ j, g.Available q d j ↔ g.Available p d j := by
    intro j
    have hused : used q d j = used p d j := (used_congr h).symm
    constructor
    · exact fun ha => ⟨ha.mem, ha.start_le, ha.lt_stop, hused ▸ ha.used_lt⟩
    · exact fun ha => ⟨ha.mem, ha.start_le, ha.lt_stop, hused ▸ ha.used_lt⟩
  exact ⟨fun i hi => (hiff i).mpr (hc.available i hi),
    fun i hi j hj => hc.first i hi j ((hiff j).mp hj), fun ho j hj => hc.none ho j ((hiff j).mp hj)⟩

/-- The plan of which the days before `d` have been chosen. -/
def history (choice : (ℕ → Option ι) → ℕ → Option ι) : ℕ → ℕ → Option ι
  | 0 => fun _ => none
  | d + 1 => Function.update (history choice d) d (choice (history choice d) d)

theorem history_of_lt (choice : (ℕ → Option ι) → ℕ → Option ι) {t : ℕ} (h : t < d) :
    history choice d t = choice (history choice t) t := by
  induction d with
  | zero => omega
  | succ d ih =>
    rw [history]
    by_cases htd : t = d
    · rw [htd, Function.update_self]
    · rw [Function.update_of_ne htd, ih (by omega)]

/-- **There is an eager plan.** -/
theorem exists_eager (g : Goods ι) : ∃ p, g.Eager p := by
  choose choice hchoice using g.exists_chosen
  exact ⟨fun d => choice (history choice d) d, fun d =>
    (hchoice (history choice d) d).congr fun t ht => history_of_lt choice ht⟩

/-! ### No plan consumes more -/

/-- How much is consumed before the day `d` of what must be consumed before the day `v`. -/
def before (g : Goods ι) (p : ℕ → Option ι) (d v : ℕ) : ℕ :=
  ∑ i ∈ g.all with g.stop i < v, used p d i

/-- One more day on which nothing is consumed. -/
theorem before_succ_none (h : p d = none) : g.before p (d + 1) v = g.before p d v := by
  refine Finset.sum_congr rfl fun i _ => ?_
  rw [used_succ, h, if_neg (by rintro ⟨⟩), add_zero]

/-- One more day on which `i` is consumed. -/
theorem before_succ_some (h : p d = some i) (hi : i ∈ g.all) :
    g.before p (d + 1) v = g.before p d v + if g.stop i < v then 1 else 0 := by
  have hsum : g.before p (d + 1) v =
      g.before p d v + ∑ j ∈ g.all with g.stop j < v, if i = j then 1 else 0 := by
    rw [before, before, ← Finset.sum_add_distrib]
    refine Finset.sum_congr rfl fun j _ => ?_
    simp only [used_succ, h, Option.some_inj]
  rw [hsum, Finset.sum_ite_eq]
  simp only [Finset.mem_filter, hi, true_and]

theorem before_mono (h : d ≤ e) : g.before p d v ≤ g.before p e v :=
  Finset.sum_le_sum fun i _ => used_mono p i h

/-- What must be consumed before the day `v` must be so before the day `e`, or later. -/
theorem before_split (h : e ≤ v) : g.before p d v =
    g.before p d e + ∑ i ∈ g.all with e ≤ g.stop i ∧ g.stop i < v, used p d i := by
  rw [before, before, ← Finset.sum_filter_add_sum_filter_not _ fun i => g.stop i < e,
    Finset.filter_filter, Finset.filter_filter]
  congr 2
  · exact Finset.filter_congr fun i _ => by omega
  · exact Finset.filter_congr fun i _ => by omega

/-- On a day on which an eager plan consumes nothing that must be consumed before the day `v`, all
that is there of this has been consumed. -/
theorem Eager.amount_le_used (hq : g.Eager q) (hno : ∀ i, q d = some i → v ≤ g.stop i)
    (hj : j ∈ g.all) (hstart : g.start j ≤ d) (hstop : d < g.stop j) (hv : g.stop j < v) :
    g.amount j ≤ used q d j := by
  by_contra hlt
  have ha : g.Available q d j := ⟨hj, hstart, hstop, by omega⟩
  cases hd : q d with
  | none => exact (hq d).none hd j ha
  | some i =>
    have hfirst := (hq d).first i hd j ha
    have hvi := hno i hd
    omega

/-- **By each day an eager plan has consumed as much** of what must be consumed before any later
day. -/
theorem Eager.before_le (hq : g.Eager q) (hp : g.Permitted p) (hv : d < v) :
    g.before p d v ≤ g.before q d v := by
  induction d generalizing v with
  | zero => simp only [before, used_zero, le_refl]
  | succ d ih =>
    have hold : g.before p d v ≤ g.before q d v := ih (by omega)
    have hmono : g.before q d v ≤ g.before q (d + 1) v := before_mono (Nat.le_succ d)
    cases hpd : p d with
    | none => exact (before_succ_none hpd).le.trans (hold.trans hmono)
    | some i =>
      obtain ⟨hi, -, hstop⟩ := hp.within d i hpd
      by_cases hiv : g.stop i < v
      · by_cases hqd : ∀ j, q d = some j → v ≤ g.stop j
        · -- all there is of what must be consumed first has been consumed
          have hfirst : g.before p (d + 1) (d + 1) ≤ g.before q d (d + 1) := by
            rw [before_succ_some hpd hi, if_neg (by omega), add_zero]
            exact ih (Nat.lt_succ_self d)
          have hrest : ∑ i ∈ g.all with d + 1 ≤ g.stop i ∧ g.stop i < v, used p (d + 1) i ≤
              ∑ i ∈ g.all with d + 1 ≤ g.stop i ∧ g.stop i < v, used q d i := by
            refine Finset.sum_le_sum fun j hj => ?_
            obtain ⟨hmem, hdj, hjv⟩ := Finset.mem_filter.mp hj
            by_cases hstart : g.start j ≤ d
            · exact (hp.used_le (d + 1) j).trans (hq.amount_le_used hqd hmem hstart hdj hjv)
            · rw [hp.used_eq_zero (by omega)]
              exact Nat.zero_le _
          refine le_trans ?_ hmono
          rw [before_split (e := d + 1) (by omega), before_split (p := q) (e := d + 1) (by omega)]
          exact Nat.add_le_add hfirst hrest
        · push Not at hqd
          obtain ⟨j, hj, hjv⟩ := hqd
          have hmem := ((hq d).available j hj).mem
          rw [before_succ_some hpd hi, before_succ_some hj hmem, if_pos hiv, if_pos hjv]
          exact Nat.succ_le_succ hold
      · rw [before_succ_some hpd hi, if_neg hiv, add_zero]
        exact hold.trans hmono

/-- What is consumed of all kinds together. -/
theorem Permitted.consumed_eq (hp : g.Permitted p) (hv : ∀ i ∈ g.all, g.stop i < v) :
    consumed p d = g.before p d v := by
  induction d with
  | zero => simp [before]
  | succ d ih =>
    rw [consumed_succ, ih]
    cases hpd : p d with
    | none => rw [before_succ_none hpd, if_neg (by simp), add_zero]
    | some i =>
      have hi := (hp.within d i hpd).1
      rw [before_succ_some hpd hi, if_pos (hv i hi), if_pos (by simp)]

/-- **An eager plan consumes as much as any other** before each day. -/
theorem Eager.consumed_le (hq : g.Eager q) (hp : g.Permitted p) (d : ℕ) :
    consumed p d ≤ consumed q d := by
  have hv : ∀ i ∈ g.all, g.stop i < g.all.sup g.stop + d + 1 := by
    intro i hi
    have hle : g.stop i ≤ g.all.sup g.stop := Finset.le_sup hi
    omega
  rw [hp.consumed_eq hv, hq.permitted.consumed_eq hv]
  exact hq.before_le hp (by omega)

/-! ### What is left -/

/-- What is left in the morning of the day `d` of what must be consumed before the day `e`. -/
def stock (g : Goods ι) (p : ℕ → Option ι) (d e : ℕ) : ℕ :=
  ∑ i ∈ g.all with g.stop i = e ∧ g.start i < d, (g.amount i - used p d i)

/-- What is there on the day `d` of what must be consumed before the day `e`. -/
def shelf (g : Goods ι) (p : ℕ → Option ι) (d e : ℕ) : ℕ :=
  ∑ i ∈ g.all with g.stop i = e ∧ g.start i ≤ d, (g.amount i - used p d i)

@[simp] theorem stock_zero (g : Goods ι) (p : ℕ → Option ι) (e : ℕ) : g.stock p 0 e = 0 := by
  refine Finset.sum_eq_zero fun i hi => ?_
  have hneg := (Finset.mem_filter.mp hi).2.2
  omega

/-- **In the morning the goods of the day arrive.** -/
theorem Permitted.shelf_eq (hp : g.Permitted p) : g.shelf p d e =
    g.stock p d e + ∑ i ∈ g.all with g.stop i = e ∧ g.start i = d, g.amount i := by
  rw [shelf, stock, ← Finset.sum_filter_add_sum_filter_not _ fun i => g.start i < d,
    Finset.filter_filter, Finset.filter_filter]
  congr 1
  · exact Finset.sum_congr (Finset.filter_congr fun i _ => by omega) fun _ _ => rfl
  · refine Finset.sum_congr (Finset.filter_congr fun i _ => by omega) fun i hi => ?_
    have hstart := (Finset.mem_filter.mp hi).2.2
    rw [hp.used_eq_zero (by omega), Nat.sub_zero]

/-- Something is there exactly if some kind is available. -/
theorem shelf_pos_iff (hde : d < e) :
    0 < g.shelf p d e ↔ ∃ j, g.Available p d j ∧ g.stop j = e := by
  rw [shelf, Finset.sum_pos_iff]
  constructor
  · rintro ⟨j, hj, hpos⟩
    obtain ⟨hmem, rfl, hstart⟩ := Finset.mem_filter.mp hj
    exact ⟨j, ⟨hmem, hstart, hde, Nat.lt_of_sub_pos hpos⟩, rfl⟩
  · rintro ⟨j, ha, rfl⟩
    exact ⟨j, Finset.mem_filter.mpr ⟨ha.mem, rfl, ha.start_le⟩, Nat.sub_pos_of_lt ha.used_lt⟩

/-- There is no more than has arrived in all. -/
theorem shelf_le (g : Goods ι) (p : ℕ → Option ι) (d e : ℕ) :
    g.shelf p d e ≤ ∑ i ∈ g.all, g.amount i :=
  (Finset.sum_le_sum fun _ _ => Nat.sub_le _ _).trans
    (Finset.sum_le_sum_of_subset (Finset.filter_subset _ _))

/-- What is left of a day on which nothing is consumed. -/
theorem stock_succ_none (h : p d = none) : g.stock p (d + 1) e = g.shelf p d e := by
  refine Finset.sum_congr (Finset.filter_congr fun i _ => by omega) fun i _ => ?_
  rw [used_succ, h, if_neg (by rintro ⟨⟩), add_zero]

/-- What is left of a day on which `i` is consumed. -/
theorem stock_succ_some (h : p d = some i) (ha : g.Available p d i) :
    g.stock p (d + 1) e + (if g.stop i = e then 1 else 0) = g.shelf p d e := by
  have hone : (if g.stop i = e then 1 else 0) =
      ∑ j ∈ g.all with g.stop j = e ∧ g.start j ≤ d, if i = j then 1 else 0 := by
    rw [Finset.sum_ite_eq]
    simp only [Finset.mem_filter, ha.mem, ha.start_le, true_and, and_true]
  have hstock : g.stock p (d + 1) e =
      ∑ j ∈ g.all with g.stop j = e ∧ g.start j ≤ d, (g.amount j - used p (d + 1) j) :=
    Finset.sum_congr (Finset.filter_congr fun i _ => by omega) fun _ _ => rfl
  rw [hone, hstock, shelf, ← Finset.sum_add_distrib]
  refine Finset.sum_congr rfl fun j _ => ?_
  simp only [used_succ, h, Option.some_inj]
  split_ifs with hij
  · subst hij
    have hlt := ha.used_lt
    omega
  · rw [add_zero, add_zero]

/-- **An eager plan on a day on which nothing is there.** -/
theorem Eager.idle (hq : g.Eager q) (h : ∀ e, d < e → g.shelf q d e = 0) :
    consumed q (d + 1) = consumed q d ∧ ∀ e, g.stock q (d + 1) e = g.shelf q d e := by
  have hnone : q d = none := by
    cases hqd : q d with
    | none => rfl
    | some i =>
      have ha := (hq d).available i hqd
      have hpos := (shelf_pos_iff ha.lt_stop).mpr ⟨i, ha, rfl⟩
      rw [h _ ha.lt_stop] at hpos
      exact absurd hpos (lt_irrefl 0)
  refine ⟨?_, fun e => stock_succ_none hnone⟩
  rw [consumed_succ, hnone, if_neg (by simp), add_zero]

/-- **An eager plan on any other day** consumes one unit of what must be consumed first. -/
theorem Eager.eats (hq : g.Eager q) (hde : d < e) (hpos : 0 < g.shelf q d e)
    (hfirst : ∀ e', d < e' → 0 < g.shelf q d e' → e ≤ e') :
    consumed q (d + 1) = consumed q d + 1 ∧
      ∀ e', g.stock q (d + 1) e' + (if e = e' then 1 else 0) = g.shelf q d e' := by
  obtain ⟨j, hj, rfl⟩ := (shelf_pos_iff hde).mp hpos
  cases hqd : q d with
  | none => exact absurd hj ((hq d).none hqd j)
  | some i =>
    have ha := (hq d).available i hqd
    have hstop : g.stop j = g.stop i := by
      refine le_antisymm (hfirst _ ha.lt_stop ?_) ((hq d).first i hqd j hj)
      exact (shelf_pos_iff ha.lt_stop).mpr ⟨i, ha, rfl⟩
    refine ⟨?_, fun e' => hstop ▸ stock_succ_some hqd ha⟩
    rw [consumed_succ, hqd, if_pos (by simp)]

/-! ### When all goods have arrived -/

theorem shelf_eq_stock (h : ∀ i ∈ g.all, g.start i < d) : g.shelf p d e = g.stock p d e :=
  Finset.sum_congr (Finset.filter_congr fun i hi => by have := h i hi; omega) fun _ _ => rfl

/-- **Where nothing is left** nothing more is consumed. -/
theorem Eager.rest (hq : g.Eager q) (hall : ∀ i ∈ g.all, g.start i < d)
    (h : ∀ e, d < e → g.stock q d e = 0) (k : ℕ) :
    consumed q (d + k) = consumed q d ∧ ∀ e, g.stock q (d + k) e = g.stock q d e := by
  induction k with
  | zero => exact ⟨rfl, fun e => rfl⟩
  | succ k ih =>
    have hshelf : ∀ e, g.shelf q (d + k) e = g.stock q d e := by
      intro e
      rw [shelf_eq_stock fun i hi => (hall i hi).trans_le (Nat.le_add_right d k), ih.2]
    obtain ⟨hcount, hstock⟩ := hq.idle (d := d + k) fun e he => (hshelf e).trans (h e (by omega))
    exact ⟨hcount.trans ih.1, fun e => (hstock e).trans (hshelf e)⟩

/-- **For several days** an eager plan consumes what must be consumed first. -/
theorem Eager.several (hq : g.Eager q) (hall : ∀ i ∈ g.all, g.start i < d)
    (hfirst : ∀ e', d < e' → 0 < g.stock q d e' → e ≤ e') {k : ℕ} (hk : k ≤ g.stock q d e)
    (hke : d + k ≤ e) : consumed q (d + k) = consumed q d + k ∧
      ∀ e', g.stock q (d + k) e' + (if e = e' then k else 0) = g.stock q d e' := by
  induction k with
  | zero => exact ⟨rfl, fun e' => by rw [ite_self, add_zero, add_zero]⟩
  | succ k ih =>
    obtain ⟨hcount, hstock⟩ := ih (by omega) (by omega)
    have hshelf : ∀ e', g.shelf q (d + k) e' = g.stock q (d + k) e' := fun e' =>
      shelf_eq_stock fun i hi => (hall i hi).trans_le (Nat.le_add_right d k)
    have hpos : 0 < g.shelf q (d + k) e := by
      have hone := hstock e
      rw [if_pos rfl] at hone
      rw [hshelf]
      omega
    obtain ⟨hcount', hstock'⟩ := hq.eats (d := d + k) (by omega) hpos fun e' he' hpos' =>
      hfirst e' (by omega) (by rw [hshelf] at hpos'; have := hstock e'; omega)
    refine ⟨by rw [← add_assoc, hcount', hcount, add_assoc], fun e' => ?_⟩
    have hold := hstock e'
    have hnew := hstock' e'
    rw [hshelf] at hnew
    rw [← add_assoc]
    split_ifs at hold hnew ⊢ <;> omega

end Goods

end Candcpp
