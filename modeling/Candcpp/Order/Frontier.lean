import Candcpp.Order.Windows
import Mathlib.Data.Set.Card

/-!
# Windows by their ends

Of the windows with one end, those that have a property are the ones that start before some
position, where a window that contains one that has it has it as well: this position is the
`Candcpp.Frontier` of the end. It moves to the right with the end, so that a search may go on from
where it was.

Two questions are answered in this way. How many windows have the property: for each end as many as
its frontier says (`Candcpp.Frontier.ncard_succ`). And which is the shortest one, and of these the
leftmost (`Candcpp.Leftmost`): a search looks only at the windows between the old frontier and the
new one, since **a window in front of the old frontier is longer than one that has been seen**
(`Candcpp.Best.next`).
-/

namespace Candcpp

variable {good : ℕ → ℕ → Prop} {a b k l l' m n r r' : ℕ}

/-! ### The frontier -/

/-- **The frontier** of the end `r`: the windows that start before it have the property, and those
that start there or behind it have not. -/
structure Frontier (good : ℕ → ℕ → Prop) (r l : ℕ) : Prop where
  le : l ≤ r
  holds : ∀ k < l, good k r
  fails : ∀ k, l ≤ k → k < r → ¬ good k r

theorem frontier_zero (good : ℕ → ℕ → Prop) : Frontier good 0 0 where
  le := le_rfl
  holds := fun k hk => absurd hk (Nat.not_lt_zero k)
  fails := fun k _ hk => absurd hk (Nat.not_lt_zero k)

/-- The windows with the next end that start before the frontier have the property. -/
theorem Frontier.keeps (h : Frontier good r l) (hext : Extends good) (hk : k < l) :
    good k (r + 1) :=
  hext k r k (r + 1) le_rfl (hk.trans_le h.le) (Nat.le_succ r) (h.holds k hk)

/-- **A frontier is found** where the first window fails. -/
theorem frontier_of_stop (hext : Extends good) (hl : l ≤ r) (hgood : ∀ k < l, good k r)
    (hstop : ¬ good l r) : Frontier good r l where
  le := hl
  holds := hgood
  fails := fun k hlk hkr hk => hstop (hext k r l r hlk hkr le_rfl hk)

/-! ### Counting the windows -/

/-- The windows that have the property, as pairs of their two ends. -/
def goodWindows (good : ℕ → ℕ → Prop) (n : ℕ) : Set (ℕ × ℕ) :=
  {p | p.1 < p.2 ∧ p.2 ≤ n ∧ good p.1 p.2}

theorem goodWindows_zero (good : ℕ → ℕ → Prop) : goodWindows good 0 = ∅ :=
  Set.eq_empty_of_forall_notMem fun p hp => by
    have hlt := hp.1
    have hle := hp.2.1
    omega

theorem finite_goodWindows (good : ℕ → ℕ → Prop) (n : ℕ) : (goodWindows good n).Finite := by
  refine ((Set.finite_Iic n).prod (Set.finite_Iic n)).subset fun p hp => ?_
  exact ⟨(hp.1.trans_le hp.2.1).le, hp.2.1⟩

/-- **The windows with the next end** are as many as its frontier says. -/
theorem Frontier.ncard_succ (h : Frontier good (n + 1) l) :
    (goodWindows good (n + 1)).ncard = (goodWindows good n).ncard + l := by
  have hsplit : goodWindows good (n + 1) =
      goodWindows good n ∪ (fun k => (k, n + 1)) '' (Set.Iio l) := by
    ext p
    constructor
    · rintro ⟨hlt, hle, hg⟩
      rcases (show p.2 ≤ n ∨ p.2 = n + 1 by omega) with hn | hn
      · exact .inl ⟨hlt, hn, hg⟩
      · refine .inr ⟨p.1, ?_, Prod.ext rfl hn.symm⟩
        by_contra hl
        exact h.fails p.1 (not_lt.mp hl) (hn ▸ hlt) (hn ▸ hg)
    · rintro (⟨hlt, hle, hg⟩ | ⟨k, hk, rfl⟩)
      · exact ⟨hlt, hle.trans (Nat.le_succ n), hg⟩
      · exact ⟨hk.trans_le h.le, le_rfl, h.holds k hk⟩
  have hapart : Disjoint (goodWindows good n) ((fun k => (k, n + 1)) '' (Set.Iio l)) := by
    rw [Set.disjoint_left]
    rintro p ⟨-, hle, -⟩ ⟨k, -, rfl⟩
    exact absurd hle (Nat.not_succ_le_self n)
  rw [hsplit, Set.ncard_union_eq hapart (finite_goodWindows good n) ((Set.finite_Iio l).image _),
    Set.ncard_image_of_injective _ fun _ _ hkl => (Prod.mk.inj hkl).1, ← Finset.coe_Iio,
    Set.ncard_coe_finset, Nat.card_Iio]

/-! ### The leftmost of the shortest windows -/

/-- The window from `a` to `b` comes before that from `l` to `r`: it is shorter, or of the same
length and not more to the right. -/
def Before (a b l r : ℕ) : Prop := b - a < r - l ∨ b - a = r - l ∧ a ≤ l

/-- **The leftmost of the shortest windows** that have the property. -/
structure Leftmost (good : ℕ → ℕ → Prop) (n a b : ℕ) : Prop where
  lt : a < b
  le : b ≤ n
  holds : good a b
  before : ∀ l r, l < r → r ≤ n → good l r → Before a b l r

/-- The windows up to `r`, and those up to `r + 1` that start before `k`. -/
def Seen (r k l' r' : ℕ) : Prop := r' ≤ r ∨ r' = r + 1 ∧ l' < k

/-- **The best window so far**, if there is one, of those up to `r`, and of those up to `r + 1` that
start before `k`. -/
def Best (good : ℕ → ℕ → Prop) (r k : ℕ) : Option (ℕ × ℕ) → Prop
  | none => ∀ l' r', l' < r' → Seen r k l' r' → ¬ good l' r'
  | some (a, b) => (a < b ∧ Seen r k a b ∧ good a b) ∧
      ∀ l' r', l' < r' → Seen r k l' r' → good l' r' → Before a b l' r'

theorem Before.refl (a b : ℕ) : Before a b a b := .inr ⟨rfl, le_rfl⟩

theorem Seen.mono (h : Seen r k l' r') : Seen r (k + 1) l' r' :=
  h.imp_right fun h => ⟨h.1, h.2.trans (Nat.lt_succ_self k)⟩

/-- The next start is seen. -/
theorem seen_succ (h : Seen r (k + 1) l' r') : Seen r k l' r' ∨ (l' = k ∧ r' = r + 1) := by
  rcases h with h | ⟨h, hl⟩
  · exact .inl (.inl h)
  · rcases Nat.lt_succ_iff_lt_or_eq.mp hl with hlt | heq
    · exact .inl (.inr ⟨h, hlt⟩)
    · exact .inr ⟨heq, h⟩

theorem best_zero (good : ℕ → ℕ → Prop) : Best good 0 0 none := by
  rintro l r hlr (hr | ⟨-, hl⟩)
  · omega
  · omega

namespace Best

/-- **The first window** that has the property. -/
theorem first (h : Best good r k none) (hk : k ≤ r) (hgood : good k (r + 1)) :
    Best good r (k + 1) (some (k, r + 1)) := by
  refine ⟨⟨by omega, .inr ⟨rfl, Nat.lt_succ_self k⟩, hgood⟩, fun l' r' hlr hs hg => ?_⟩
  rcases seen_succ hs with hold | ⟨rfl, rfl⟩
  · exact absurd hg (h l' r' hlr hold)
  · exact .refl _ _

/-- **A shorter window** takes the place of the best one. -/
theorem shorter (h : Best good r k (some (a, b))) (hk : k ≤ r) (hgood : good k (r + 1))
    (hlt : r + 1 - k < b - a) : Best good r (k + 1) (some (k, r + 1)) := by
  refine ⟨⟨by omega, .inr ⟨rfl, Nat.lt_succ_self k⟩, hgood⟩, fun l' r' hlr hs hg => ?_⟩
  rcases seen_succ hs with hold | ⟨rfl, rfl⟩
  · rcases h.2 l' r' hlr hold hg with hlen | ⟨hlen, -⟩
    · exact .inl (hlt.trans hlen)
    · exact .inl (hlen ▸ hlt)
  · exact .refl _ _

/-- One that is not shorter does not: it is more to the right. -/
theorem keep (h : Best good r k (some (a, b))) (hk : k ≤ r) (hle : b - a ≤ r + 1 - k) :
    Best good r (k + 1) (some (a, b)) := by
  obtain ⟨⟨hab, hs, hg⟩, hall⟩ := h
  refine ⟨⟨hab, hs.mono, hg⟩, fun l' r' hlr hs' hg' => ?_⟩
  rcases seen_succ hs' with hold | ⟨rfl, rfl⟩
  · exact hall l' r' hlr hold hg'
  · rcases hle.lt_or_eq with hlt | heq
    · exact .inl hlt
    · refine .inr ⟨heq, ?_⟩
      rcases hs with hb | ⟨hb, ha⟩
      · omega
      · exact ha.le

/-- **The next end**: of its windows none is better that starts before the frontier of the last
one. -/
theorem next {best : Option (ℕ × ℕ)} (h : Best good r k best) (hf : Frontier good (r + 1) k) :
    Best good (r + 1) k best := by
  -- what is seen in addition is longer than something that has been seen
  have hseen : ∀ l' r', l' < r' → Seen (r + 1) k l' r' → good l' r' → Seen r k l' r' ∨
      ∃ r'', l' < r'' ∧ Seen r k l' r'' ∧ good l' r'' ∧ r'' < r' := by
    rintro l' r' hlr (hr | ⟨rfl, hl⟩) hg
    · rcases Nat.le_succ_iff.mp hr with hle | rfl
      · exact .inl (.inl hle)
      · refine .inl (.inr ⟨rfl, ?_⟩)
        by_contra hl
        exact hf.fails l' (not_lt.mp hl) hlr hg
    · exact .inr ⟨r + 1, hl.trans_le hf.le, .inr ⟨rfl, hl⟩, hf.holds l' hl, Nat.lt_succ_self _⟩
  cases best with
  | none =>
    intro l' r' hlr hs hg
    rcases hseen l' r' hlr hs hg with hold | ⟨r'', hlr'', hold, hg'', -⟩
    · exact h l' r' hlr hold hg
    · exact h l' r'' hlr'' hold hg''
  | some p =>
    obtain ⟨⟨hab, hs, hg⟩, hall⟩ := h
    refine ⟨⟨hab, .inl ?_, hg⟩, fun l' r' hlr hs' hg' => ?_⟩
    · rcases hs with hb | ⟨hb, -⟩
      · exact hb.trans (Nat.le_succ r)
      · exact hb.le
    · rcases hseen l' r' hlr hs' hg' with hold | ⟨r'', hlr'', hold, hg'', hlt⟩
      · exact hall l' r' hlr hold hg'
      · refine .inl ?_
        rcases hall l' r'' hlr'' hold hg'' with hlen | ⟨hlen, -⟩
        · omega
        · omega

/-- **In the end** it is the leftmost of the shortest windows: one with a later end is longer than
one that has been seen. -/
theorem leftmost (h : Best good n k (some (a, b))) (hf : Frontier good n k) :
    Leftmost good n a b where
  lt := h.1.1
  le := by
    obtain ⟨⟨-, hs, -⟩, hall⟩ := h
    rcases hs with hb | ⟨rfl, ha⟩
    · exact hb
    · have han : a < n := ha.trans_le hf.le
      rcases hall a n han (.inl le_rfl) (hf.holds a ha) with hlen | ⟨hlen, -⟩
      · omega
      · omega
  holds := h.1.2.2
  before := fun l' r' hlr hr hg => h.2 l' r' hlr (.inl hr) hg

theorem eq_empty (h : Best good n k none) : goodWindows good n = ∅ :=
  Set.eq_empty_of_forall_notMem fun p hp => h p.1 p.2 hp.1 (.inl hp.2.1) hp.2.2

end Best

end Candcpp
