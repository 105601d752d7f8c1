import Mathlib

/-!
# Guillotine cuts

A cake is cut into unit pieces, one cut after the other. A piece is given by the costs of the lines
that go through it, the horizontal and the vertical ones, each in order. A cut takes a piece and one
of its lines, costs what the line costs, and leaves two pieces, which share the lines of the other
direction (`Candcpp.Guillotine.Cuts`).

A line that is cut before another one of the other direction leaves two copies of that one. So a
pair of such lines costs the cheaper of the two once more, at least, and **the least cost is the sum
of all lines and of the cheaper line of each pair** (`Candcpp.Guillotine.isLeast_least`): no cut
takes more than its cost off that sum (`Candcpp.Guillotine.least_row_le`), and cutting along the
most expensive line of a piece takes off exactly its cost (`Candcpp.Guillotine.least_row_eq`).
-/

namespace Candcpp

namespace Guillotine

/-- A piece of a cake: the costs of the lines through it. -/
structure Piece where
  horizontal : List ℤ
  vertical : List ℤ
  deriving DecidableEq

namespace Piece

/-- The piece that lies the other way round. -/
def transpose (p : Piece) : Piece := ⟨p.vertical, p.horizontal⟩

/-- The number of lines through a piece. -/
def lines (p : Piece) : ℕ := p.horizontal.length + p.vertical.length

end Piece

/-- **Cutting all pieces** into unit pieces, one cut after the other, at a total cost. -/
inductive Cuts : Multiset Piece → ℤ → Prop
  /-- There are unit pieces only. -/
  | done {s : Multiset Piece} (h : ∀ p ∈ s, p = ⟨[], []⟩) : Cuts s 0
  /-- A piece is cut along a horizontal line. -/
  | row {s : Multiset Piece} {above below v : List ℤ} {x c : ℤ}
    (h : Cuts (⟨above, v⟩ ::ₘ ⟨below, v⟩ ::ₘ s) c) : Cuts (⟨above ++ x :: below, v⟩ ::ₘ s) (x + c)
  /-- A piece is cut along a vertical line. -/
  | column {s : Multiset Piece} {h left right : List ℤ} {y c : ℤ}
    (hrest : Cuts (⟨h, left⟩ ::ₘ ⟨h, right⟩ ::ₘ s) c) :
    Cuts (⟨h, left ++ y :: right⟩ ::ₘ s) (y + c)

/-- The cheaper line of each pair of a line and one of `l`, added up. -/
def pairs (x : ℤ) (l : List ℤ) : ℤ := (l.map (min x)).sum

/-- **The least cost** of cutting a piece: all its lines, and the cheaper one of each pair. -/
def least (p : Piece) : ℤ :=
  p.horizontal.sum + p.vertical.sum + (p.horizontal.map (pairs · p.vertical)).sum

variable {p : Piece} {s : Multiset Piece} {above below left right h v l : List ℤ} {x y c : ℤ}

/-! ### Pairs of lines -/

theorem pairs_le_sum (x : ℤ) (l : List ℤ) : pairs x l ≤ l.sum := by
  induction l with
  | nil => exact le_rfl
  | cons y l ih =>
    rw [pairs, List.map_cons, List.sum_cons, List.sum_cons]
    exact add_le_add (min_le_right x y) ih

/-- The pairs of a line with cheaper ones. -/
theorem pairs_eq_sum (hle : ∀ y ∈ l, y ≤ x) : pairs x l = l.sum := by
  rw [pairs, List.map_congr_left fun y hy => min_eq_right (hle y hy), List.map_id']

/-- The pairs of a line with more expensive ones. -/
theorem pairs_eq_mul (hle : ∀ y ∈ l, x ≤ y) : pairs x l = x * l.length := by
  rw [pairs, List.map_congr_left fun y hy => min_eq_left (hle y hy), List.map_const',
    List.sum_replicate, nsmul_eq_mul, mul_comm]

theorem pairs_nonneg (hx : 0 ≤ x) (hl : ∀ y ∈ l, 0 ≤ y) : 0 ≤ pairs x l := by
  refine List.sum_nonneg fun z hz => ?_
  obtain ⟨y, hy, rfl⟩ := List.mem_map.mp hz
  exact le_min hx (hl y hy)

theorem least_nonneg (hh : ∀ x ∈ h, 0 ≤ x) (hv : ∀ y ∈ v, 0 ≤ y) : 0 ≤ least ⟨h, v⟩ := by
  refine add_nonneg (add_nonneg (List.sum_nonneg hh) (List.sum_nonneg hv)) ?_
  refine List.sum_nonneg fun z hz => ?_
  obtain ⟨x, hx, rfl⟩ := List.mem_map.mp hz
  exact pairs_nonneg (hh x hx) hv

theorem least_cons (x : ℤ) (h v : List ℤ) :
    least ⟨x :: h, v⟩ = x + pairs x v + least ⟨h, v⟩ := by
  simp only [least, List.map_cons, List.sum_cons]
  ring

/-- The two directions are alike. -/
theorem least_transpose (p : Piece) : least p.transpose = least p := by
  obtain ⟨h, v⟩ := p
  change least ⟨v, h⟩ = least ⟨h, v⟩
  induction h with
  | nil => simp [least, pairs]
  | cons x h ih =>
    have hcross : (v.map (pairs · (x :: h))).sum = pairs x v + (v.map (pairs · h)).sum := by
      rw [pairs, ← List.sum_map_add]
      refine congrArg List.sum (List.map_congr_left fun y _ => ?_)
      rw [pairs, List.map_cons, List.sum_cons, min_comm, pairs]
    rw [least_cons, ← ih]
    simp only [least, hcross, List.sum_cons]
    ring

/-- The order of the lines does not matter. -/
theorem least_perm {h' v' : List ℤ} (hh : h.Perm h') (hv : v.Perm v') :
    least ⟨h, v⟩ = least ⟨h', v'⟩ := by
  have hpairs : ∀ x, pairs x v = pairs x v' := fun x => (hv.map _).sum_eq
  simp only [least, hh.sum_eq, hv.sum_eq, hpairs, (hh.map _).sum_eq]

/-! ### One cut -/

theorem least_row (above below v : List ℤ) (x : ℤ) : least ⟨above ++ x :: below, v⟩ + v.sum =
    x + pairs x v + (least ⟨above, v⟩ + least ⟨below, v⟩) := by
  simp only [least, List.sum_append, List.map_append, List.sum_cons, List.map_cons]
  ring

/-- **A cut** takes at most its cost off the sum. -/
theorem least_row_le (above below v : List ℤ) (x : ℤ) : least ⟨above ++ x :: below, v⟩ ≤
    x + (least ⟨above, v⟩ + least ⟨below, v⟩) := by
  have hrow := least_row above below v x
  have hpairs := pairs_le_sum x v
  omega

/-- **A cut along the most expensive line** takes exactly its cost off. -/
theorem least_row_eq (hx : ∀ y ∈ v, y ≤ x) (above below : List ℤ) :
    least ⟨above ++ x :: below, v⟩ = x + (least ⟨above, v⟩ + least ⟨below, v⟩) := by
  have hrow := least_row above below v x
  rw [pairs_eq_sum hx] at hrow
  omega

theorem least_column_le (h left right : List ℤ) (y : ℤ) : least ⟨h, left ++ y :: right⟩ ≤
    y + (least ⟨h, left⟩ + least ⟨h, right⟩) := by
  have hrow := least_row_le left right h y
  rwa [← least_transpose, ← least_transpose ⟨left, h⟩, ← least_transpose ⟨right, h⟩] at hrow

theorem least_column_eq (hy : ∀ x ∈ h, x ≤ y) (left right : List ℤ) :
    least ⟨h, left ++ y :: right⟩ = y + (least ⟨h, left⟩ + least ⟨h, right⟩) := by
  have hrow := least_row_eq hy left right
  rwa [← least_transpose, ← least_transpose ⟨left, h⟩, ← least_transpose ⟨right, h⟩] at hrow

theorem exists_max (hne : l ≠ []) : ∃ x ∈ l, ∀ y ∈ l, y ≤ x := by
  obtain ⟨x, hx⟩ := Option.isSome_iff_exists.mp (List.isSome_max?_of_ne_nil hne)
  exact ⟨x, List.max?_eq_some_iff.mp hx⟩

/-- A piece that is no unit piece has a most expensive line. -/
theorem exists_greatest (h v : List ℤ) : (h = [] ∧ v = []) ∨ (∃ x ∈ h, ∀ y ∈ v, y ≤ x) ∨
    ∃ y ∈ v, ∀ x ∈ h, x ≤ y := by
  rcases eq_or_ne h [] with rfl | hh
  · rcases eq_or_ne v [] with rfl | hv
    · exact .inl ⟨rfl, rfl⟩
    · obtain ⟨y, hy, -⟩ := exists_max hv
      exact .inr (.inr ⟨y, hy, fun x hx => absurd hx List.not_mem_nil⟩)
  · obtain ⟨x, hx, hxmax⟩ := exists_max hh
    rcases eq_or_ne v [] with rfl | hv
    · exact .inr (.inl ⟨x, hx, fun y hy => absurd hy List.not_mem_nil⟩)
    · obtain ⟨y, hy, hymax⟩ := exists_max hv
      rcases le_total x y with hle | hle
      · exact .inr (.inr ⟨y, hy, fun z hz => (hxmax z hz).trans hle⟩)
      · exact .inr (.inl ⟨x, hx, fun z hz => (hymax z hz).trans hle⟩)

/-! ### All cuts -/

/-- **No order of the cuts** costs less than the sum. -/
theorem Cuts.le (h : Cuts s c) : (s.map least).sum ≤ c := by
  induction h with
  | @done s h =>
    refine (Multiset.sum_eq_zero fun z hz => ?_).le
    obtain ⟨p, hp, rfl⟩ := Multiset.mem_map.mp hz
    rw [h p hp]
    rfl
  | @row s above below v x c _ ih =>
    have hcut := least_row_le above below v x
    simp only [Multiset.map_cons, Multiset.sum_cons] at ih ⊢
    omega
  | @column s h left right y c _ ih =>
    have hcut := least_column_le h left right y
    simp only [Multiset.map_cons, Multiset.sum_cons] at ih ⊢
    omega

/-- A unit piece needs no cut. -/
theorem Cuts.unit (h : Cuts s c) : Cuts (⟨[], []⟩ ::ₘ s) c := by
  have hswap : ∀ (p q : Piece) (s : Multiset Piece),
      p ::ₘ q ::ₘ ⟨[], []⟩ ::ₘ s = ⟨[], []⟩ ::ₘ p ::ₘ q ::ₘ s := fun p q s => by
    rw [Multiset.cons_swap q, Multiset.cons_swap p]
  induction h with
  | done h =>
    refine .done fun p hp => ?_
    rcases Multiset.mem_cons.mp hp with rfl | hp
    · rfl
    · exact h p hp
  | row _ ih =>
    rw [Multiset.cons_swap]
    exact .row (hswap _ _ _ ▸ ih)
  | column _ ih =>
    rw [Multiset.cons_swap]
    exact .column (hswap _ _ _ ▸ ih)

/-- **A piece is cut at the least cost**: along its most expensive line first. -/
theorem Cuts.piece (p : Piece) (h : Cuts s c) : Cuts (p ::ₘ s) (least p + c) := by
  induction hn : p.lines using Nat.strong_induction_on generalizing p s c with
  | _ n ih =>
    obtain ⟨hs, vs⟩ := p
    rcases exists_greatest hs vs with ⟨rfl, rfl⟩ | ⟨x, hx, hmax⟩ | ⟨y, hy, hmax⟩
    · exact (zero_add c).symm ▸ h.unit
    · obtain ⟨above, below, rfl⟩ := List.append_of_mem hx
      have hlines : (Piece.mk above vs).lines < n ∧ (Piece.mk below vs).lines < n := by
        simp only [Piece.lines, List.length_append, List.length_cons] at hn ⊢
        omega
      have hcuts := ih _ hlines.1 _ (ih _ hlines.2 _ h rfl) rfl
      rw [least_row_eq hmax, add_assoc, add_assoc]
      exact .row hcuts
    · obtain ⟨left, right, rfl⟩ := List.append_of_mem hy
      have hlines : (Piece.mk hs left).lines < n ∧ (Piece.mk hs right).lines < n := by
        simp only [Piece.lines, List.length_append, List.length_cons] at hn ⊢
        omega
      have hcuts := ih _ hlines.1 _ (ih _ hlines.2 _ h rfl) rfl
      rw [least_column_eq hmax, add_assoc, add_assoc]
      exact .column hcuts

/-- **The sum is the least cost** of all orders of cuts. -/
theorem isLeast_least (p : Piece) : IsLeast {c | Cuts {p} c} (least p) := by
  refine ⟨?_, fun c hc => ?_⟩
  · have hcuts := (Cuts.done (s := 0) fun p hp => absurd hp (Multiset.notMem_zero p)).piece p
    rwa [add_zero] at hcuts
  · have hle := Cuts.le hc
    rwa [Multiset.map_singleton, Multiset.sum_singleton] at hle

end Guillotine

end Candcpp
