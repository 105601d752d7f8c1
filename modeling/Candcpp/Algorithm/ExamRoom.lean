import Candcpp.Lts
import Candcpp.Order.Neighbours
import Candcpp.Order.PriorityQueue

/-!
# The exam room

The class `ExamRoom` of `leetcode/simulation/855.cpp`: a row of `n` seats in which each student
takes the free seat that is farthest from the taken ones, and the first of them if there are
several. The taken seats are in a set, and the intervals between them in a priority queue, from
which an interval that has ceased to be one is removed only when it comes to the top.

| what holds in every state | |
|---|---|
| `Inv.covered` | two taken seats with no other one between are an interval of the queue |
| `Inv.pairs` | the ends of an interval of the queue are in order, be it one of the room or not |

An interval of the queue is one of the room if its ends are neighbours among the taken seats
(`Candcpp.Neighbours`), and then the top of the queue is the best one of them all, which leaves
the seats at both ends of the row to compare with (`Candcpp.ExamRoom.isBest_middle`,
`Candcpp.ExamRoom.isBest_right`, `Candcpp.ExamRoom.isBest_left`). The queue is any
`Candcpp.Cpp.PriorityQueue`: intervals of equal priority may come in any order.
-/

namespace Candcpp

open Cpp

namespace ExamRoom

/-- `struct Comp`: the interval `p1` has a lower priority than `p2`. -/
def Comp (p1 p2 : ℤ × ℤ) : Prop :=
  (p1.2 - p1.1).tdiv 2 < (p2.2 - p2.1).tdiv 2 ∨
    ((p1.2 - p1.1).tdiv 2 = (p2.2 - p2.1).tdiv 2 ∧ p1.1 > p2.1)

instance : DecidableRel Comp := fun _ _ => inferInstanceAs (Decidable (_ ∨ _))

instance : IsStrictOrder (ℤ × ℤ) Comp where
  irrefl := by
    rintro p (h | ⟨-, h⟩)
    · exact lt_irrefl _ h
    · exact lt_irrefl _ h
  trans := by
    rintro a b c (hab | ⟨hab, hab'⟩) (hbc | ⟨hbc, hbc'⟩)
    · exact Or.inl (hab.trans hbc)
    · exact Or.inl (hbc ▸ hab)
    · exact Or.inl (hab ▸ hbc)
    · exact Or.inr ⟨hab.trans hbc, hbc'.trans hab'⟩

end ExamRoom

/-- `class ExamRoom`, with an implementation of the queue. -/
structure ExamRoom (Q : PriorityQueue (ℤ × ℤ) ExamRoom.Comp) where
  n : ℤ
  seats : Finset ℤ
  pq : Q.Queue

namespace ExamRoom

variable {Q : PriorityQueue (ℤ × ℤ) Comp}

/-! ### The code -/

/-- `ExamRoom(n)`. -/
def create (Q : PriorityQueue (ℤ × ℤ) Comp) (n : ℤ) : ExamRoom Q where
  n := n
  seats := ∅
  pq := Q.empty

/-- `*it`, of an iterator that is at the end or at an element. -/
def deref : Option ℤ → Exec ℤ
  | none => throw .outOfRange
  | some x => pure x

/-- `*seats.begin()`. -/
def first (seats : Finset ℤ) : Exec ℤ := deref seats.min

/-- `*seats.rbegin()`. -/
def last (seats : Finset ℤ) : Exec ℤ := deref seats.max

/-- `*next(seats.find(x))`. -/
def next (seats : Finset ℤ) (x : ℤ) : Exec ℤ := deref (seats.filter (x < ·)).min

/-- `*prev(seats.find(x))`. -/
def prev (seats : Finset ℤ) (x : ℤ) : Exec ℤ := deref (seats.filter (· < x)).max

/-- Whether `p` is an interval of the room, and not one to be deleted. -/
def isInterval (seats : Finset ℤ) (p : ℤ × ℤ) : Exec Bool := do
  if p.1 ∈ seats ∧ p.2 ∈ seats then
    let x ← next seats p.1
    pure (x = p.2)
  else
    pure false

/-- The loop of `seat`: the seat it returns, unless it ends. -/
def seatLoop (s : ExamRoom Q) (left right : ℤ) : Exec (Option ℤ × ExamRoom Q) := do
  let +zeta seatLoop : type_of% seatLoop := by apply seatLoop
  if 2 ≤ s.seats.card then
    let p ← Q.top s.pq
    if ← isInterval s.seats p then
      let d := p.2 - p.1
      if d.tdiv 2 < right ∨ d.tdiv 2 ≤ left then
        pure (none, s)
      else
        let pq ← Q.pop s.pq
        let pq := Q.push pq (p.1, p.1 + d.tdiv 2)
        let pq := Q.push pq (p.1 + d.tdiv 2, p.2)
        pure (some (p.1 + d.tdiv 2), { s with seats := insert (p.1 + d.tdiv 2) s.seats, pq := pq })
    else
      let pq ← Q.pop s.pq
      seatLoop { s with pq := pq } left right
  else
    pure (none, s)
partial_fixpoint

/-- `seat()`. -/
def seat (s : ExamRoom Q) : Exec (ℤ × ExamRoom Q) := do
  if s.seats = ∅ then
    pure (0, { s with seats := insert 0 s.seats })
  else
    let b ← first s.seats
    let r ← last s.seats
    let left := b - 0
    let right := s.n - 1 - r
    match ← seatLoop s left right with
    | (some x, s) => pure (x, s)
    | (none, s) =>
      if right > left then
        let r ← last s.seats
        let pq := Q.push s.pq (r, s.n - 1)
        pure (s.n - 1, { s with seats := insert (s.n - 1) s.seats, pq := pq })
      else
        let b ← first s.seats
        let pq := Q.push s.pq (0, b)
        pure (0, { s with seats := insert 0 s.seats, pq := pq })

/-- `leave(p)`. -/
def leave (s : ExamRoom Q) (p : ℤ) : Exec (ExamRoom Q) := do
  let b ← first s.seats
  let r ← last s.seats
  if p ≠ b ∧ p ≠ r then
    let x ← prev s.seats p
    let y ← next s.seats p
    pure { s with seats := s.seats.erase p, pq := Q.push s.pq (x, y) }
  else
    pure { s with seats := s.seats.erase p }

/-! ### The program -/

/-- A call of a method. -/
inductive Act where
  | seat : Act
  | leave (p : ℤ) : Act
  deriving DecidableEq, Repr

/-- Any calls on a new object: `seat` where a seat is free, and `leave` for a taken seat. -/
def program (Q : PriorityQueue (ℤ × ℤ) Comp) (n : ℤ) : Program (ExamRoom Q) Act where
  init := fun s => s = create Q n
  allowed
    | s, .seat => s.seats.card < s.n
    | s, .leave p => p ∈ s.seats
  exec
    | s, .seat => do
      let r ← s.seat
      pure r.2
    | s, .leave p => s.leave p

/-! ### The best seat -/

/-- The distance to the nearest taken seat, infinite in an empty room. -/
def near (S : Finset ℤ) (q : ℤ) : WithTop ℕ := S.inf fun x => ((q - x).natAbs : WithTop ℕ)

/-- **The best seat**: a free one, as far from the taken ones as any other, and the first of
these. -/
structure IsBest (n : ℤ) (S : Finset ℤ) (p : ℤ) : Prop where
  range : 0 ≤ p ∧ p ≤ n - 1
  free : p ∉ S
  best : ∀ q, 0 ≤ q → q ≤ n - 1 → q ∉ S → near S q ≤ near S p
  least : ∀ q, 0 ≤ q → q ≤ n - 1 → q ∉ S → near S q = near S p → p ≤ q

variable {n p b r : ℤ} {S : Finset ℤ} {s : ExamRoom Q}

/-- A seat at a distance `v` from all the taken ones is the best one, if any other free seat has
a taken one nearer, or at the distance `v` and is behind it. -/
theorem isBest_of {v : ℕ} (hrange : 0 ≤ p ∧ p ≤ n - 1) (hfree : p ∉ S)
    (hv : ∀ x ∈ S, v ≤ (p - x).natAbs)
    (h : ∀ q, 0 ≤ q → q ≤ n - 1 → q ∉ S →
      ∃ x ∈ S, (q - x).natAbs ≤ v ∧ ((q - x).natAbs = v → p ≤ q)) : IsBest n S p where
  range := hrange
  free := hfree
  best := by
    intro q h0 hn hq
    obtain ⟨x, hx, hle, -⟩ := h q h0 hn hq
    have hp : (v : WithTop ℕ) ≤ near S p :=
      Finset.le_inf fun x hx => WithTop.coe_le_coe.mpr (hv x hx)
    exact (Finset.inf_le hx).trans ((WithTop.coe_le_coe.mpr hle).trans hp)
  least := by
    intro q h0 hn hq heq
    obtain ⟨x, hx, hle, hlast⟩ := h q h0 hn hq
    have hp : (v : WithTop ℕ) ≤ near S p :=
      Finset.le_inf fun x hx => WithTop.coe_le_coe.mpr (hv x hx)
    refine hlast (le_antisymm hle ?_)
    have hq : near S q ≤ ((q - x).natAbs : WithTop ℕ) := Finset.inf_le hx
    exact WithTop.coe_le_coe.mp (hp.trans (heq ▸ hq))

/-- What is known of a room that is not empty: the first and the last taken seat. -/
structure Row (n : ℤ) (S : Finset ℤ) (b r : ℤ) : Prop where
  first_mem : b ∈ S
  first_le : ∀ x ∈ S, b ≤ x
  last_mem : r ∈ S
  le_last : ∀ x ∈ S, x ≤ r
  range : ∀ x ∈ S, 0 ≤ x ∧ x ≤ n - 1

/-- **Where a free seat is**: before the first taken one, behind the last one, or between two
neighbours. -/
theorem Row.cases (h : Row n S b r) {q : ℤ} (hq : q ∉ S) :
    q < b ∨ r < q ∨ ∃ a c, Neighbours S a c ∧ a < q ∧ q < c := by
  rcases lt_trichotomy q b with hlt | rfl | hgt
  · exact Or.inl hlt
  · exact absurd h.first_mem hq
  · rcases lt_trichotomy q r with hlt | rfl | hgt'
    · exact Or.inr (Or.inr (Neighbours.exists_around h.first_mem h.last_mem hgt hlt hq))
    · exact absurd h.last_mem hq
    · exact Or.inr (Or.inl hgt')

/-- **A seat between two neighbours** is at most half as far from one of them as they are from
each other, and it is not before the middle if it is as far as that. -/
theorem Row.between {a c q : ℤ} (h : Neighbours S a c) (ha : a < q) (hc : q < c) :
    ∃ x ∈ S, ((q - x).natAbs : ℤ) ≤ (c - a) / 2 ∧
      (((q - x).natAbs : ℤ) = (c - a) / 2 → a + (c - a) / 2 ≤ q) := by
  by_cases hmid : q ≤ a + (c - a) / 2
  · exact ⟨a, h.left_mem, by omega, fun heq => by omega⟩
  · exact ⟨c, h.right_mem, by omega, fun heq => by omega⟩

/-- **The middle of an interval is the best seat**, if no other interval is better and the ends
of the row are not. -/
theorem isBest_middle (h : Row n S b r) {a₀ c₀ : ℤ} (h₀ : Neighbours S a₀ c₀)
    (hmax : ∀ a c, Neighbours S a c → (c - a) / 2 ≤ (c₀ - a₀) / 2 ∧
      ((c - a) / 2 = (c₀ - a₀) / 2 → a₀ ≤ a))
    (hleft : b < (c₀ - a₀) / 2) (hright : n - 1 - r ≤ (c₀ - a₀) / 2) :
    IsBest n S (a₀ + (c₀ - a₀) / 2) := by
  have hb := h.range b h.first_mem
  have ha₀ := h.range a₀ h₀.left_mem
  have hc₀ := h.range c₀ h₀.right_mem
  have hlt := h₀.lt
  have hout : ∀ x ∈ S, x ≤ a₀ ∨ c₀ ≤ x := fun x hx =>
    (le_or_gt x a₀).imp_right (h₀.between x hx)
  refine isBest_of (v := ((c₀ - a₀) / 2).toNat) (by omega) (fun hmem => ?_) (fun x hx => ?_) ?_
  · have := hout _ hmem
    omega
  · have := hout x hx
    omega
  · intro q h0 hn hq
    rcases h.cases hq with hlt' | hgt | ⟨a, c, hac, ha, hc⟩
    · exact ⟨b, h.first_mem, by omega, fun heq => by omega⟩
    · have hcr := h.le_last c₀ h₀.right_mem
      exact ⟨r, h.last_mem, by omega, fun heq => by omega⟩
    · obtain ⟨x, hx, hle, heq⟩ := Row.between hac ha hc
      obtain ⟨hD, hfirst⟩ := hmax a c hac
      exact ⟨x, hx, by omega, fun hv => by omega⟩

/-- **The last seat of the row is the best one**, if it is farther away than the others. -/
theorem isBest_right (h : Row n S b r) (hlr : b < n - 1 - r)
    (hmax : ∀ a c, Neighbours S a c → (c - a) / 2 < n - 1 - r ∨ (c - a) / 2 ≤ b) :
    IsBest n S (n - 1) := by
  have hb := h.range b h.first_mem
  have hr := h.range r h.last_mem
  refine isBest_of (v := (n - 1 - r).toNat) (by omega) (fun hmem => ?_) (fun x hx => ?_) ?_
  · have := h.le_last _ hmem
    omega
  · have := h.le_last x hx
    omega
  · intro q h0 hn hq
    rcases h.cases hq with hlt' | hgt | ⟨a, c, hac, ha, hc⟩
    · exact ⟨b, h.first_mem, by omega, fun heq => by omega⟩
    · exact ⟨r, h.last_mem, by omega, fun heq => by omega⟩
    · obtain ⟨x, hx, hle, heq⟩ := Row.between hac ha hc
      have := hmax a c hac
      exact ⟨x, hx, by omega, fun hv => by omega⟩

/-- **The first seat of the row is the best one**, if no other is farther away. -/
theorem isBest_left (h : Row n S b r) (hlr : n - 1 - r ≤ b) (hb : 0 < b)
    (hmax : ∀ a c, Neighbours S a c → (c - a) / 2 < n - 1 - r ∨ (c - a) / 2 ≤ b) :
    IsBest n S 0 := by
  have hr := h.range r h.last_mem
  refine isBest_of (v := b.toNat) (by omega) (fun hmem => ?_) (fun x hx => ?_) ?_
  · have := h.first_le _ hmem
    omega
  · have := h.first_le x hx
    omega
  · intro q h0 hn hq
    rcases h.cases hq with hlt' | hgt | ⟨a, c, hac, ha, hc⟩
    · exact ⟨b, h.first_mem, by omega, fun _ => h0⟩
    · exact ⟨r, h.last_mem, by omega, fun _ => h0⟩
    · obtain ⟨x, hx, hle, -⟩ := Row.between hac ha hc
      have := hmax a c hac
      exact ⟨x, hx, by omega, fun _ => h0⟩

/-- A room with a free seat is not full: its first seat is free, or one behind the last taken
one, or one in an interval. -/
theorem Row.exists_free (h : Row n S b r) (hcard : S.card < n) :
    0 < b ∨ r < n - 1 ∨ ∃ a c, Neighbours S a c ∧ 1 ≤ (c - a) / 2 := by
  have hb := h.range b h.first_mem
  have hlt : S.card < (Finset.Icc 0 (n - 1)).card := by
    rw [Int.card_Icc]
    omega
  obtain ⟨q, hq, hqS⟩ := Finset.exists_mem_notMem_of_card_lt_card hlt
  obtain ⟨h0, hn⟩ := Finset.mem_Icc.mp hq
  rcases h.cases hqS with hlt' | hgt | ⟨a, c, hac, ha, hc⟩
  · exact Or.inl (by omega)
  · exact Or.inr (Or.inl (by omega))
  · exact Or.inr (Or.inr ⟨a, c, hac, by omega⟩)

/-! ### The set and the queue -/

/-- **The invariant** of the room and its queue. -/
structure Inv (n : ℤ) (s : ExamRoom Q) : Prop where
  size : s.n = n
  range : ∀ x ∈ s.seats, 0 ≤ x ∧ x ≤ n - 1
  pairs : ∀ p ∈ Q.contents s.pq, p.1 < p.2
  covered : ∀ a c, Neighbours s.seats a c → (a, c) ∈ Q.contents s.pq

/-- The first and the last seat of a room that is not empty. -/
theorem Inv.row (h : Inv n s) (hne : s.seats ≠ ∅) :
    ∃ b r, first s.seats = pure b ∧ last s.seats = pure r ∧ Row n s.seats b r := by
  obtain ⟨b, hb⟩ := Finset.min_of_nonempty (Finset.nonempty_iff_ne_empty.mpr hne)
  obtain ⟨r, hr⟩ := Finset.max_of_nonempty (Finset.nonempty_iff_ne_empty.mpr hne)
  refine ⟨b, r, by rw [first, hb]; rfl, by rw [last, hr]; rfl, ?_⟩
  exact ⟨Finset.mem_of_min hb, fun x hx => Finset.min_le_of_eq hx hb, Finset.mem_of_max hr,
    fun x hx => Finset.le_max_of_eq hx hr, h.range⟩

theorem next_eq {a c : ℤ} (h : Neighbours S a c) : next S a = pure c := by
  rw [next, (Neighbours.iff_min h.left_mem).mp h]
  rfl

theorem prev_eq {a c : ℤ} (h : Neighbours S a c) : prev S c = pure a := by
  rw [prev, (Neighbours.iff_max h.right_mem).mp h]
  rfl

/-- **The test of `seat`**: the ends of an interval of the room are neighbours. -/
theorem isInterval_eq (S : Finset ℤ) {p : ℤ × ℤ} (hp : p.1 < p.2) :
    ∃ v, isInterval S p = pure v ∧ (v = true ↔ Neighbours S p.1 p.2) := by
  rw [isInterval]
  by_cases hmem : p.1 ∈ S ∧ p.2 ∈ S
  · obtain ⟨c, hc⟩ := Neighbours.exists_right hmem.1 hmem.2 hp
    refine ⟨c = p.2, by rw [if_pos hmem, next_eq hc, pure_bind], ?_⟩
    rw [decide_eq_true_eq]
    constructor
    · rintro rfl
      exact hc
    · exact fun h => hc.right_unique h
  · refine ⟨false, if_neg hmem, iff_of_false Bool.false_ne_true fun h => ?_⟩
    exact hmem ⟨h.left_mem, h.right_mem⟩

/-- **The top of the queue** is an interval as long as any other, by halves, and the first of
these. -/
theorem le_of_not_comp {p p' : ℤ × ℤ} (hp : p.1 < p.2) (hp' : p'.1 < p'.2) (h : ¬ Comp p p') :
    (p'.2 - p'.1) / 2 ≤ (p.2 - p.1) / 2 ∧ ((p'.2 - p'.1) / 2 = (p.2 - p.1) / 2 → p.1 ≤ p'.1) := by
  rw [Comp, Int.tdiv_eq_ediv_of_nonneg (by omega), Int.tdiv_eq_ediv_of_nonneg (by omega)] at h
  omega

/-- A seat is taken in an interval that is popped, and its two parts are pushed. -/
theorem Inv.split (h : Inv n s) {a₀ c₀ x : ℤ} (h₀ : Neighbours s.seats a₀ c₀) (ha : a₀ < x)
    (hc : x < c₀) {pq : Q.Queue} (hpq : Q.contents s.pq = (a₀, c₀) ::ₘ Q.contents pq) :
    Inv n { s with seats := insert x s.seats, pq := Q.push (Q.push pq (a₀, x)) (x, c₀) } where
  size := h.size
  range := by
    intro y hy
    rcases Finset.mem_insert.mp hy with rfl | hy
    · have := h.range a₀ h₀.left_mem
      have := h.range c₀ h₀.right_mem
      omega
    · exact h.range y hy
  pairs := by
    intro p hp
    rw [Q.contents_push, Q.contents_push, Multiset.mem_cons, Multiset.mem_cons] at hp
    rcases hp with rfl | rfl | hp
    · exact hc
    · exact ha
    · exact h.pairs p (hpq ▸ Multiset.mem_cons_of_mem hp)
  covered := by
    intro a c hac
    rw [Q.contents_push, Q.contents_push, Multiset.mem_cons, Multiset.mem_cons]
    have hlt := hac.lt
    rcases hac.of_insert with hold | ⟨haS, rfl, hnext⟩ | ⟨rfl, hcS, -, hnext⟩
    · -- the interval that is popped is none any more
      have hmem := h.covered a c hold
      rw [hpq, Multiset.mem_cons] at hmem
      refine Or.inr (Or.inr (hmem.resolve_left fun heq => ?_))
      obtain ⟨rfl, rfl⟩ := Prod.mk.inj heq
      exact (hac.between x (Finset.mem_insert_self _ _) ha).not_gt hc
    · have hle : a ≤ a₀ := by
        by_contra hgt
        have := h₀.between a haS (not_le.mp hgt)
        omega
      have hge : a₀ ≤ a := by
        by_contra hgt
        have := hnext a₀ h₀.left_mem (not_le.mp hgt)
        omega
      exact Or.inr (Or.inl (by rw [le_antisymm hle hge]))
    · have hle : c ≤ c₀ := hnext c₀ h₀.right_mem hc
      have hge : c₀ ≤ c := h₀.between c hcS (ha.trans hlt)
      exact Or.inl (by rw [le_antisymm hle hge])

/-- **The loop of `seat`** returns the middle of the best interval, or it ends because one of the
ends of the row is better than every interval. -/
theorem Inv.seatLoop (h : Inv n s) (hrow : Row n s.seats b r) :
    (∃ x s', seatLoop s b (n - 1 - r) = pure (some x, s') ∧ IsBest n s.seats x ∧
      s'.seats = insert x s.seats ∧ Inv n s') ∨
    ∃ s', ExamRoom.seatLoop s b (n - 1 - r) = pure (none, s') ∧ s'.seats = s.seats ∧ Inv n s' ∧
      ∀ a c, Neighbours s.seats a c → (c - a) / 2 < n - 1 - r ∨ (c - a) / 2 ≤ b := by
  -- each turn removes the top of the queue, unless the loop is left
  induction hk : (Q.contents s.pq).card using Nat.strong_induction_on generalizing s with
  | h k ih =>
    rw [ExamRoom.seatLoop]
    by_cases hcard : 2 ≤ s.seats.card
    · obtain ⟨y, hy, hyb⟩ := Finset.exists_mem_ne hcard b
      obtain ⟨c₁, hc₁⟩ := Neighbours.exists_right hrow.first_mem hy
        (lt_of_le_of_ne (hrow.first_le y hy) hyb.symm)
      -- two seats are taken, so that there is an interval, and its entry is in the queue
      have hne : Q.contents s.pq ≠ 0 := fun h0 => by
        have hmem := h.covered b c₁ hc₁
        rw [h0] at hmem
        exact Multiset.notMem_zero _ hmem
      obtain ⟨p, hp, htop, hmax, pq, hpop, hpq⟩ := Q.top_eq s.pq hne
      have hlt := h.pairs p hp
      obtain ⟨v, hv, hiff⟩ := isInterval_eq s.seats hlt
      have hmid : (p.2 - p.1).tdiv 2 = (p.2 - p.1) / 2 := Int.tdiv_eq_ediv_of_nonneg (by omega)
      rw [if_pos hcard, htop, pure_bind, hv, pure_bind]
      dsimp only
      rw [hmid]
      by_cases hvalid : Neighbours s.seats p.1 p.2
      · have hbest : ∀ a c, Neighbours s.seats a c → (c - a) / 2 ≤ (p.2 - p.1) / 2 ∧
            ((c - a) / 2 = (p.2 - p.1) / 2 → p.1 ≤ a) := fun a c hac =>
          le_of_not_comp hlt hac.lt (hmax (a, c) (h.covered a c hac))
        rw [if_pos (hiff.mpr hvalid)]
        by_cases hend : (p.2 - p.1) / 2 < n - 1 - r ∨ (p.2 - p.1) / 2 ≤ b
        · rw [if_pos hend]
          refine Or.inr ⟨s, rfl, rfl, h, fun a c hac => ?_⟩
          have := (hbest a c hac).1
          omega
        · rw [if_neg hend, hpop, pure_bind]
          have hb := hrow.range b hrow.first_mem
          refine Or.inl ⟨_, _, rfl, isBest_middle hrow hvalid hbest (by omega) (by omega), rfl, ?_⟩
          exact h.split hvalid (by omega) (by omega) hpq
      -- an entry that is out of date covers no interval: without it the queue still covers all
      · rw [if_neg (mt hiff.mp hvalid), hpop, pure_bind]
        have hinv : Inv n { s with pq := pq } := by
          refine ⟨h.size, h.range, fun p' hp' => h.pairs p' (hpq ▸ Multiset.mem_cons_of_mem hp'),
            fun a c hac => ?_⟩
          have hmem := h.covered a c hac
          rw [hpq, Multiset.mem_cons] at hmem
          refine hmem.resolve_left fun heq => hvalid ?_
          rwa [← heq]
        refine ih _ ?_ hinv hrow rfl
        rw [← hk, hpq, Multiset.card_cons]
        exact Nat.lt_succ_self _
    · rw [if_neg hcard]
      refine Or.inr ⟨s, rfl, rfl, h, fun a c hac => absurd ?_ hcard⟩
      exact Finset.one_lt_card.mpr ⟨a, hac.left_mem, c, hac.right_mem, hac.lt.ne⟩

/-! ### The methods -/

/-- The last seat of the row is taken, behind the last taken one. -/
theorem Inv.pushRight (h : Inv n s) (hrow : Row n s.seats b r) (hr : r < n - 1) :
    Inv n { s with seats := insert (n - 1) s.seats, pq := Q.push s.pq (r, n - 1) } where
  size := h.size
  range := by
    intro x hx
    rcases Finset.mem_insert.mp hx with rfl | hx
    · have := h.range r hrow.last_mem
      omega
    · exact h.range x hx
  pairs := by
    intro p hp
    rcases Multiset.mem_cons.mp (Q.contents_push _ _ ▸ hp) with rfl | hp
    · exact hr
    · exact h.pairs p hp
  covered := by
    intro a c hac
    rw [Q.contents_push, Multiset.mem_cons]
    rcases hac.of_insert with hold | ⟨haS, rfl, hnext⟩ | ⟨rfl, hcS, hlt, -⟩
    · exact Or.inr (h.covered a c hold)
    · have hra : r ≤ a := by
        by_contra har
        exact (hnext r hrow.last_mem (not_le.mp har)).not_gt hr
      exact Or.inl (by rw [le_antisymm (hrow.le_last a haS) hra])
    · have := hrow.le_last c hcS
      omega

/-- The first seat of the row is taken, before the first taken one. -/
theorem Inv.pushLeft (h : Inv n s) (hrow : Row n s.seats b r) (hb : 0 < b) :
    Inv n { s with seats := insert 0 s.seats, pq := Q.push s.pq (0, b) } where
  size := h.size
  range := by
    intro x hx
    rcases Finset.mem_insert.mp hx with rfl | hx
    · have := h.range b hrow.first_mem
      omega
    · exact h.range x hx
  pairs := by
    intro p hp
    rcases Multiset.mem_cons.mp (Q.contents_push _ _ ▸ hp) with rfl | hp
    · exact hb
    · exact h.pairs p hp
  covered := by
    intro a c hac
    rw [Q.contents_push, Multiset.mem_cons]
    have hlt := hac.lt
    rcases hac.of_insert with hold | ⟨haS, rfl, -⟩ | ⟨rfl, hcS, -, hnext⟩
    · exact Or.inr (h.covered a c hold)
    · have := hrow.first_le a haS
      omega
    · have hcb : c = b := le_antisymm (hnext b hrow.first_mem hb) (hrow.first_le c hcS)
      exact Or.inl (by rw [hcb])

/-- In an empty room the first seat is the best one. -/
theorem isBest_empty (hn : 0 < n) : IsBest n ∅ 0 where
  range := by omega
  free := Finset.notMem_empty 0
  best := fun _ _ _ _ => le_rfl
  least := fun _ h0 _ _ _ => h0

/-- **`seat` returns the best seat** and takes it. -/
theorem Inv.seat (h : Inv n s) (hcard : s.seats.card < n) : ∃ x s', s.seat = pure (x, s') ∧
    IsBest n s.seats x ∧ s'.seats = insert x s.seats ∧ Inv n s' := by
  rw [ExamRoom.seat]
  by_cases hne : s.seats = ∅
  · rw [if_pos hne]
    have hn : 0 < n := by
      rw [hne, Finset.card_empty] at hcard
      exact hcard
    refine ⟨0, _, rfl, hne ▸ isBest_empty hn, rfl, ?_⟩
    rw [hne]
    refine ⟨h.size, fun x hx => ?_, h.pairs, fun a c hac => ?_⟩
    · rw [Finset.mem_singleton.mp hx]
      omega
    · have ha := Finset.mem_singleton.mp hac.left_mem
      have hc := Finset.mem_singleton.mp hac.right_mem
      exact absurd hac.lt (by rw [ha, hc]; exact lt_irrefl _)
  · obtain ⟨b, r, hb, hr, hrow⟩ := h.row hne
    rw [if_neg hne, hb, pure_bind, hr, pure_bind, sub_zero, h.size]
    dsimp only
    rcases h.seatLoop hrow with ⟨x, s', hloop, hbest, hseats, hinv⟩ |
      ⟨s', hloop, hseats, hinv, hmax⟩
    · rw [hloop, pure_bind]
      exact ⟨x, s', rfl, hbest, hseats, hinv⟩
    · have hrow' : Row n s'.seats b r := hseats ▸ hrow
      rw [hloop, pure_bind]
      dsimp only
      by_cases hright : n - 1 - r > b
      · rw [if_pos hright, hseats, hr, pure_bind, hinv.size, ← hseats]
        have hb0 := hrow.range b hrow.first_mem
        refine ⟨n - 1, _, rfl, isBest_right (hseats ▸ hrow) hright (hseats ▸ hmax), ?_, ?_⟩
        · rw [hseats]
        · have hpush := hinv.pushRight hrow' (by omega)
          rwa [hinv.size] at hpush
      · have hb0 := hrow.range b hrow.first_mem
        have hr0 := hrow.range r hrow.last_mem
        -- a seat is free, and if it were not to the left of `b`, one of the ends or a middle were
        -- better
        have hpos : 0 < b := by
          rcases hrow.exists_free hcard with hpos | hlast | ⟨a, c, hac, hmid⟩
          · exact hpos
          · omega
          · have := hmax a c hac
            omega
        rw [if_neg hright, hseats, hb, pure_bind, ← hseats]
        refine ⟨0, _, rfl, isBest_left (hseats ▸ hrow) (by omega) hpos (hseats ▸ hmax), ?_, ?_⟩
        · rw [hseats]
        · exact hinv.pushLeft hrow' hpos

/-- **`leave` gives up a seat**, and the interval around it is pushed. -/
theorem Inv.leave (h : Inv n s) (hp : p ∈ s.seats) :
    ∃ s', s.leave p = pure s' ∧ s'.seats = s.seats.erase p ∧ Inv n s' := by
  obtain ⟨b, r, hb, hr, hrow⟩ := h.row (Finset.ne_empty_of_mem hp)
  have hrange : ∀ x ∈ s.seats.erase p, 0 ≤ x ∧ x ≤ n - 1 := fun x hx =>
    h.range x (Finset.mem_of_mem_erase hx)
  rw [ExamRoom.leave, hb, pure_bind, hr, pure_bind]
  by_cases hends : p ≠ b ∧ p ≠ r
  · obtain ⟨x, hx⟩ := Neighbours.exists_left hrow.first_mem hp
      (lt_of_le_of_ne (hrow.first_le p hp) hends.1.symm)
    obtain ⟨y, hy⟩ := Neighbours.exists_right hp hrow.last_mem
      (lt_of_le_of_ne (hrow.le_last p hp) hends.2)
    rw [if_pos hends, prev_eq hx, pure_bind, next_eq hy, pure_bind]
    refine ⟨_, rfl, rfl, h.size, hrange, fun p' hp' => ?_, fun a c hac => ?_⟩
    · rcases Multiset.mem_cons.mp (Q.contents_push _ _ ▸ hp') with rfl | hp'
      · exact hx.lt.trans hy.lt
      · exact h.pairs p' hp'
    · rw [Q.contents_push, Multiset.mem_cons]
      rcases hac.of_erase with hold | ⟨hap, hpc⟩
      · exact Or.inr (h.covered a c hold)
      · exact Or.inl (by rw [hap.left_unique hx, hpc.right_unique hy])
  · rw [if_neg hends]
    refine ⟨_, rfl, rfl, h.size, hrange, h.pairs, fun a c hac => ?_⟩
    rcases hac.of_erase with hold | ⟨hap, hpc⟩
    · exact h.covered a c hold
    · -- an end of the taken seats has no neighbours on both sides
      refine absurd ⟨?_, ?_⟩ hends
      · rintro rfl
        exact (hrow.first_le a hap.left_mem).not_gt hap.lt
      · rintro rfl
        exact (hrow.le_last c hpc.right_mem).not_gt hpc.lt

/-! ### Every run -/

/-- **What a call does** in a state: `seat` returns the best seat and takes it, and `leave` gives
up the seat it is called for. -/
structure Correct (n : ℤ) (s : ExamRoom Q) : Prop where
  seat : s.seats.card < s.n → ∃ x s', s.seat = pure (x, s') ∧ IsBest n s.seats x ∧
    s'.seats = insert x s.seats
  leave : ∀ p ∈ s.seats, ∃ s', s.leave p = pure s' ∧ s'.seats = s.seats.erase p

theorem inv_create (n : ℤ) : Inv n (create Q n) where
  size := rfl
  range := fun x hx => absurd hx (Finset.notMem_empty x)
  pairs := by
    intro p hp
    rw [create, Q.contents_empty] at hp
    exact absurd hp (Multiset.notMem_zero p)
  covered := fun a _ hac => absurd hac.left_mem (Finset.notMem_empty a)

theorem reachable_inv (h : (program Q n).Reachable s) : Inv n s := by
  refine (Program.safe (I := Inv n) ?_ ?_ h).1
  · rintro s rfl
    exact inv_create n
  · intro s a hinv hall
    cases a with
    | seat =>
      obtain ⟨x, s', hs, -, -, hinv'⟩ := hinv.seat (hinv.size ▸ hall)
      exact ⟨s', by simp only [program, hs, pure_bind], hinv'⟩
    | leave p =>
      obtain ⟨s', hs, -, hinv'⟩ := hinv.leave hall
      exact ⟨s', hs, hinv'⟩

/-- **Every call of every run is correct.** -/
theorem reachable_correct (h : (program Q n).Reachable s) : Correct n s := by
  have hinv := reachable_inv h
  constructor
  · intro hcard
    obtain ⟨x, s', hs, hbest, hseats, -⟩ := hinv.seat (hinv.size ▸ hcard)
    exact ⟨x, s', hs, hbest, hseats⟩
  · intro p hp
    obtain ⟨s', hs, hseats, -⟩ := hinv.leave hp
    exact ⟨s', hs, hseats⟩

/-- A room of ten seats, with a queue in a list, in which the first seat has been taken. -/
theorem reachable_correct_ten : ∃ s : ExamRoom (.ofList Comp),
    (program (.ofList Comp) 10).Reachable s ∧ s.seats = {0} ∧ Correct 10 s := by
  have hinit : (program (.ofList Comp) 10).Reachable (create (.ofList Comp) 10) := .init rfl
  have hall : (program (.ofList Comp) 10).allowed (create (.ofList Comp) 10) .seat := by
    change ((∅ : Finset ℤ).card : ℤ) < 10
    decide
  have hstep : (program (.ofList Comp) 10).Reachable
      { create (.ofList Comp) 10 with seats := {0} } := hinit.step (a := .seat) ⟨hall, rfl⟩
  exact ⟨_, hstep, rfl, reachable_correct hstep⟩

end ExamRoom

end Candcpp
