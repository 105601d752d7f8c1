import Mathlib

/-!
# Games that are decided from the end

A game of two players. A position is won by one of them, or it is the turn of its owner, who takes
one of its moves. A player forces a win within `k` moves (`Candcpp.Retrograde.Game.Forces`) where
the position is won, or where one move of the player's own, or every move of the opponent, leads to
a position from which a win is forced within `k - 1`. At most one player can do so
(`Candcpp.Retrograde.Game.Forces.unique`); in a game that can go on forever it may be none.

Retrograde analysis finds out who can. It keeps a table of results, and for each position that has
none the number of its moves of which it has not yet learned the result; what it still has to look
at are moves into positions that have a result. `Candcpp.Retrograde.Inv` is what each of its steps
preserves: a move is of no interest, or it wins, or it is the last one and all have lost, or it is
counted. **With nothing left to look at the results are those that can be forced**
(`Candcpp.Retrograde.Inv.result_iff`).
-/

namespace Candcpp

namespace Retrograde

/-! ### Games -/

/-- A game: whose turn it is, who has won, and which moves there are. -/
structure Game (α π : Type) where
  owner : α → π
  won : α → Option π
  moves : α → Finset α

variable {α π : Type} {G : Game α π} {p q : π} {a b c : α} {k l : ℕ}

/-- **The player `p` forces a win** within `k` moves. -/
def Game.Forces (G : Game α π) (p : π) : ℕ → α → Prop
  | 0, a => G.won a = some p
  | k + 1, a => G.won a = some p ∨ (G.won a = none ∧
      ((G.owner a = p ∧ ∃ b ∈ G.moves a, G.Forces p k b) ∨
        (G.owner a ≠ p ∧ (G.moves a).Nonempty ∧ ∀ b ∈ G.moves a, G.Forces p k b)))

namespace Game.Forces

/-- More moves do no harm. -/
theorem mono (h : G.Forces p k a) (hkl : k ≤ l) : G.Forces p l a := by
  induction k generalizing a l with
  | zero =>
    cases l with
    | zero => exact h
    | succ l => exact Or.inl h
  | succ k ih =>
    obtain ⟨l, rfl⟩ := Nat.exists_eq_add_of_le' (Nat.one_le_of_lt hkl)
    have hkl : k ≤ l := Nat.le_of_succ_le_succ hkl
    rcases h with h | ⟨hnone, ⟨howner, b, hb, h⟩ | ⟨howner, hne, h⟩⟩
    · exact Or.inl h
    · exact Or.inr ⟨hnone, Or.inl ⟨howner, b, hb, ih h hkl⟩⟩
    · exact Or.inr ⟨hnone, Or.inr ⟨howner, hne, fun b hb => ih (h b hb) hkl⟩⟩

/-- How a win is forced: it has been reached, or there is a move, or any move will do. -/
theorem won_or_move (h : G.Forces p k a) : G.won a = some p ∨ (G.won a = none ∧ ∃ l < k,
    (G.owner a = p ∧ ∃ b ∈ G.moves a, G.Forces p l b) ∨
      (G.owner a ≠ p ∧ (G.moves a).Nonempty ∧ ∀ b ∈ G.moves a, G.Forces p l b)) := by
  cases k with
  | zero => exact Or.inl h
  | succ k => exact h.imp_right fun ⟨hnone, h⟩ => ⟨hnone, k, Nat.lt_succ_self k, h⟩

/-- **Only one of the players forces a win.** -/
theorem unique (h : G.Forces p k a) (h' : G.Forces q l a) : p = q := by
  induction k using Nat.strong_induction_on generalizing a l with
  | _ k ih =>
    rcases h.won_or_move with hwon | ⟨hnone, k', hk, h⟩
    · rcases h'.won_or_move with hwon' | ⟨hnone, -⟩
      · exact Option.some.inj (hwon.symm.trans hwon')
      · exact absurd (hwon.symm.trans hnone) (Option.some_ne_none p)
    · rcases h'.won_or_move with hwon' | ⟨-, l', -, h'⟩
      · exact absurd (hwon'.symm.trans hnone) (Option.some_ne_none q)
      -- some move is good for both
      · rcases h with ⟨rfl, b, hb, h⟩ | ⟨howner, ⟨b, hb⟩, h⟩
        · rcases h' with ⟨howner, -⟩ | ⟨-, -, h'⟩
          · exact howner
          · exact ih k' hk h (h' b hb)
        · rcases h' with ⟨rfl, b', hb', h'⟩ | ⟨-, -, h'⟩
          · exact ih k' hk (h b' hb') h'
          · exact ih k' hk (h b hb) (h' b hb)

/-- The owner takes a move that wins. -/
theorem of_move (hnone : G.won a = none) (hb : b ∈ G.moves a) (h : G.Forces (G.owner a) k b) :
    G.Forces (G.owner a) (k + 1) a := Or.inr ⟨hnone, Or.inl ⟨rfl, b, hb, h⟩⟩

/-- Whatever the owner does, the opponent wins. -/
theorem of_forall (hnone : G.won a = none) (howner : G.owner a ≠ p) (hne : (G.moves a).Nonempty)
    (h : ∀ b ∈ G.moves a, ∃ k, G.Forces p k b) : ∃ k, G.Forces p k a := by
  choose! f hf using h
  refine ⟨(G.moves a).sup f + 1, Or.inr ⟨hnone, Or.inr ⟨howner, hne, fun b hb => ?_⟩⟩⟩
  exact (hf b hb).mono (Finset.le_sup hb)

end Game.Forces

/-! ### The analysis -/

/-- The positions `S` of a game and the positions `preds a` from which a move leads to `a`. What
`preds` lists of positions that are won does not matter. -/
structure Backwards (G : Game α π) (S : Set α) (preds : α → List α) : Prop where
  nodup : ∀ a ∈ S, (preds a).Nodup
  preds_mem : ∀ a ∈ S, ∀ b ∈ preds a, b ∈ S
  moves_mem : ∀ b ∈ S, G.won b = none → ∀ a ∈ G.moves b, a ∈ S
  mem_preds : ∀ a ∈ S, ∀ b ∈ S, G.won b = none → (b ∈ preds a ↔ a ∈ G.moves b)

variable {preds : α → List α} {queue : List α}

/-- The moves into the positions of a queue. -/
def intoAll (preds : α → List α) (queue : List α) : List (α × α) :=
  queue.flatMap fun a => (preds a).map fun b => (b, a)

theorem mem_intoAll :
    (b, a) ∈ intoAll preds queue ↔ a ∈ queue ∧ b ∈ preds a := by
  rw [intoAll, List.mem_flatMap]
  constructor
  · rintro ⟨c, hc, hmem⟩
    obtain ⟨d, hd, heq⟩ := List.mem_map.mp hmem
    obtain ⟨rfl, rfl⟩ := Prod.mk.inj heq
    exact ⟨hc, hd⟩
  · rintro ⟨ha, hb⟩
    exact ⟨a, ha, List.mem_map_of_mem hb⟩

theorem intoAll_snoc : intoAll preds (queue ++ [a]) =
    intoAll preds queue ++ (preds a).map fun b => (b, a) := by
  rw [intoAll, List.flatMap_append, List.flatMap_singleton, intoAll]

theorem nodup_intoAll (hqueue : queue.Nodup)
    (hpreds : ∀ a ∈ queue, (preds a).Nodup) : (intoAll preds queue).Nodup := by
  refine List.nodup_flatMap.mpr ⟨fun a ha => ?_, ?_⟩
  · exact (hpreds a ha).map fun c d heq => (Prod.mk.inj heq).1
  · refine hqueue.imp fun {a b} hne e he he' => ?_
    obtain ⟨c, -, rfl⟩ := List.mem_map.mp he
    obtain ⟨d, -, heq⟩ := List.mem_map.mp he'
    exact hne (Prod.mk.inj heq).2.symm

variable [DecidableEq α]

/-- The moves of `b` of which the analysis has not yet learned the result. A pair `(b, a)` of `work`
is a move from `b` to `a`. -/
def pending (G : Game α π) (result : α → Option π) (work : List (α × α)) (b : α) : Finset α :=
  (G.moves b).filter fun a => result a = none ∨ (b, a) ∈ work

/-- **The invariant**: the results can be forced, and a position that has none has as many moves
left as its counter says, and at least one; the others lead to where its owner does not win. -/
structure Inv (G : Game α π) (S : Set α) (preds : α → List α) (result : α → Option π)
    (degree : α → ℤ) (work : List (α × α)) : Prop where
  won : ∀ a ∈ S, ∀ p, G.won a = some p → result a = some p
  sound : ∀ a ∈ S, ∀ p, result a = some p → ∃ k, G.Forces p k a
  work_mem : ∀ b a, (b, a) ∈ work → b ∈ S ∧ a ∈ S ∧ b ∈ preds a ∧ result a ≠ none
  nodup : work.Nodup
  degree_eq : ∀ b ∈ S, result b = none → degree b = (pending G result work b).card
  degree_pos : ∀ b ∈ S, result b = none → 0 < degree b
  lost : ∀ b ∈ S, result b = none → ∀ a ∈ G.moves b, a ∉ pending G result work b →
    result a ≠ some (G.owner b)

variable {S : Set α} {result : α → Option π} {degree degree' : α → ℤ}
  {work : List (α × α)}

theorem mem_pending : a ∈ pending G result work b ↔
    a ∈ G.moves b ∧ (result a = none ∨ (b, a) ∈ work) := Finset.mem_filter

/-- The positions without a result, once one more has one. -/
theorem update_eq_none : Function.update result b (some p) c = none ↔ c ≠ b ∧ result c = none := by
  rcases eq_or_ne c b with rfl | hne
  · rw [Function.update_self]
    exact iff_of_false (Option.some_ne_none p) fun h => h.1 rfl
  · rw [Function.update_of_ne hne, and_iff_right hne]

/-- Only the moves of a position itself count. -/
theorem pending_cons_of_ne (hne : c ≠ b) :
    pending G result ((b, a) :: work) c = pending G result work c := by
  refine Finset.filter_congr fun d _ => or_congr_right ?_
  rw [List.mem_cons, Prod.mk.injEq, or_iff_right]
  rintro ⟨rfl, -⟩
  exact hne rfl

namespace Inv

/-- A position without a result is not won. -/
theorem won_eq_none (h : Inv G S preds result degree work) (hb : b ∈ S) (hnone : result b = none) :
    G.won b = none := by
  cases hw : G.won b with
  | none => rfl
  | some p => exact absurd (hnone.symm.trans (h.won b hb p hw)).symm (Option.some_ne_none p)

/-- The move that is looked at. -/
theorem mem_moves (hB : Backwards G S preds) (h : Inv G S preds result degree ((b, a) :: work))
    (hnone : result b = none) : a ∈ G.moves b := by
  obtain ⟨hb, ha, hpreds, -⟩ := h.work_mem b a List.mem_cons_self
  exact (hB.mem_preds a ha b hb (h.won_eq_none hb hnone)).mp hpreds

/-- **A move of no interest**: its position has a result. -/
theorem skip (h : Inv G S preds result degree ((b, a) :: work)) (hsome : result b ≠ none) :
    Inv G S preds result degree work where
  won := h.won
  sound := h.sound
  work_mem := fun c d hcd => h.work_mem c d (List.mem_cons_of_mem _ hcd)
  nodup := h.nodup.of_cons
  degree_eq := by
    intro c hc hnone
    rw [h.degree_eq c hc hnone, pending_cons_of_ne (by rintro rfl; exact hsome hnone)]
  degree_pos := h.degree_pos
  lost := by
    intro c hc hnone d hd hpending
    refine h.lost c hc hnone d hd ?_
    rwa [pending_cons_of_ne (by rintro rfl; exact hsome hnone)]

/-- Where a position is decided, the moves into it had no result, and are now to be looked at: so
what is pending of the others stays the same. -/
theorem pending_decide (hB : Backwards G S preds)
    (h : Inv G S preds result degree ((b, a) :: work)) (hnone : result b = none) (hc : c ∈ S)
    (hne : c ≠ b) (hcnone : result c = none) :
    pending G (Function.update result b (some p)) (work ++ (preds b).map fun c => (c, b)) c =
      pending G result ((b, a) :: work) c := by
  obtain ⟨hb, -, -, -⟩ := h.work_mem b a List.mem_cons_self
  rw [pending_cons_of_ne hne]
  refine Finset.filter_congr fun d hd => ?_
  rcases eq_or_ne d b with rfl | hdb
  · refine iff_of_true (Or.inr (List.mem_append_right _ ?_)) (Or.inl hnone)
    exact List.mem_map_of_mem ((hB.mem_preds d hb c hc (h.won_eq_none hc hcnone)).mpr hd)
  · rw [Function.update_of_ne hdb, List.mem_append]
    refine or_congr_right (or_iff_left fun hmem => ?_)
    obtain ⟨c', -, heq⟩ := List.mem_map.mp hmem
    exact hdb (Prod.mk.inj heq).2.symm

/-- **A position is decided**, and the moves into it are to be looked at. -/
theorem decide (hB : Backwards G S preds) (h : Inv G S preds result degree ((b, a) :: work))
    (hnone : result b = none) (hforces : ∃ k, G.Forces p k b)
    (hdegree : ∀ c ≠ b, degree' c = degree c) :
    Inv G S preds (Function.update result b (some p)) degree'
      (work ++ (preds b).map fun c => (c, b)) := by
  obtain ⟨hb, -, -, -⟩ := h.work_mem b a List.mem_cons_self
  constructor
  · intro c hc q hq
    have hres := h.won c hc q hq
    rwa [Function.update_of_ne]
    rintro rfl
    exact absurd (hnone.symm.trans hres).symm (Option.some_ne_none q)
  · intro c hc q hq
    rcases eq_or_ne c b with rfl | hne
    · rw [Function.update_self] at hq
      exact Option.some.inj hq ▸ hforces
    · rw [Function.update_of_ne hne] at hq
      exact h.sound c hc q hq
  · intro c d hcd
    rcases List.mem_append.mp hcd with hcd | hcd
    · obtain ⟨hc, hd, hpreds, hsome⟩ := h.work_mem c d (List.mem_cons_of_mem _ hcd)
      exact ⟨hc, hd, hpreds, fun heq => hsome (update_eq_none.mp heq).2⟩
    · obtain ⟨c', hpreds, heq⟩ := List.mem_map.mp hcd
      obtain ⟨rfl, rfl⟩ := Prod.mk.inj heq
      exact ⟨hB.preds_mem b hb c' hpreds, hb, hpreds, fun heq => (update_eq_none.mp heq).1 rfl⟩
  · refine List.nodup_append'.mpr ⟨h.nodup.of_cons, ?_, ?_⟩
    · exact (hB.nodup b hb).map fun c d heq => (Prod.mk.inj heq).1
    · -- what is still to be looked at leads to positions that had a result
      intro e he hmem
      obtain ⟨c, -, rfl⟩ := List.mem_map.mp hmem
      exact (h.work_mem c b (List.mem_cons_of_mem _ he)).2.2.2 hnone
  · intro c hc hcnone
    obtain ⟨hne, hcnone⟩ := update_eq_none.mp hcnone
    rw [hdegree c hne, h.pending_decide hB hnone hc hne hcnone]
    exact h.degree_eq c hc hcnone
  · intro c hc hcnone
    obtain ⟨hne, hcnone⟩ := update_eq_none.mp hcnone
    rw [hdegree c hne]
    exact h.degree_pos c hc hcnone
  · intro c hc hcnone d hd hmem
    obtain ⟨hne, hcnone⟩ := update_eq_none.mp hcnone
    rw [h.pending_decide hB hnone hc hne hcnone] at hmem
    rw [Function.update_of_ne]
    · exact h.lost c hc hcnone d hd hmem
    · rintro rfl
      exact hmem (mem_pending.mpr ⟨hd, Or.inl hnone⟩)

/-- **A move that wins** decides its position for the owner. -/
theorem win (hB : Backwards G S preds) (h : Inv G S preds result degree ((b, a) :: work))
    (hnone : result b = none) (hwin : result a = some (G.owner b)) :
    Inv G S preds (Function.update result b (some (G.owner b))) degree
      (work ++ (preds b).map fun c => (c, b)) := by
  obtain ⟨hb, ha, -, -⟩ := h.work_mem b a List.mem_cons_self
  obtain ⟨k, hk⟩ := h.sound a ha _ hwin
  exact h.decide hB hnone ⟨k + 1, .of_move (h.won_eq_none hb hnone) (h.mem_moves hB hnone) hk⟩
    fun _ _ => rfl

/-- Once a move has been looked at it is not pending any more. -/
theorem pending_eq_erase (h : Inv G S preds result degree ((b, a) :: work)) :
    pending G result work b = (pending G result ((b, a) :: work) b).erase a := by
  obtain ⟨-, -, -, hsome⟩ := h.work_mem b a List.mem_cons_self
  ext d
  rw [Finset.mem_erase, mem_pending, mem_pending, List.mem_cons, Prod.mk.injEq]
  constructor
  · rintro ⟨hd, hpend⟩
    refine ⟨?_, hd, hpend.imp_right Or.inr⟩
    rintro rfl
    exact hpend.elim hsome (List.nodup_cons.mp h.nodup).1
  · rintro ⟨hne, hd, hpend | ⟨-, rfl⟩ | hpend⟩
    · exact ⟨hd, Or.inl hpend⟩
    · exact absurd rfl hne
    · exact ⟨hd, Or.inr hpend⟩

/-- **A move that loses** is counted. -/
theorem lower (hB : Backwards G S preds) (h : Inv G S preds result degree ((b, a) :: work))
    (hnone : result b = none) (hlose : result a ≠ some (G.owner b)) (hdegree : degree b - 1 ≠ 0) :
    Inv G S preds result (Function.update degree b (degree b - 1)) work := by
  obtain ⟨hb, -, -, -⟩ := h.work_mem b a List.mem_cons_self
  have hmem : a ∈ pending G result ((b, a) :: work) b :=
    mem_pending.mpr ⟨h.mem_moves hB hnone, Or.inr List.mem_cons_self⟩
  constructor
  · exact h.won
  · exact h.sound
  · exact fun c d hcd => h.work_mem c d (List.mem_cons_of_mem _ hcd)
  · exact h.nodup.of_cons
  · intro c hc hcnone
    rcases eq_or_ne c b with rfl | hne
    · rw [Function.update_self, h.pending_eq_erase, Finset.card_erase_of_mem hmem,
        Nat.cast_pred (Finset.card_pos.mpr ⟨a, hmem⟩), h.degree_eq c hc hnone]
    · rw [Function.update_of_ne hne, h.degree_eq c hc hcnone, pending_cons_of_ne hne]
  · intro c hc hcnone
    rcases eq_or_ne c b with rfl | hne
    · have hpos := h.degree_pos c hc hcnone
      rw [Function.update_self]
      omega
    · rw [Function.update_of_ne hne]
      exact h.degree_pos c hc hcnone
  · intro c hc hcnone d hd hpend
    rcases eq_or_ne c b with rfl | hne
    · rw [h.pending_eq_erase, Finset.mem_erase, not_and_or, not_not] at hpend
      rcases hpend with rfl | hpend
      · exact hlose
      · exact h.lost c hc hnone d hd hpend
    · refine h.lost c hc hcnone d hd ?_
      rwa [pending_cons_of_ne hne]

/-- **The last move that loses** decides its position for the opponent. -/
theorem lose (hB : Backwards G S preds) (htwo : ∀ p q r : π, p ≠ r → q ≠ r → p = q)
    (h : Inv G S preds result degree ((b, a) :: work)) (hnone : result b = none)
    (hlose : result a = some p) (hne : p ≠ G.owner b) (hdegree : degree b - 1 = 0) :
    Inv G S preds (Function.update result b (some p)) (Function.update degree b (degree b - 1))
      (work ++ (preds b).map fun c => (c, b)) := by
  obtain ⟨hb, ha, -, -⟩ := h.work_mem b a List.mem_cons_self
  have hmem : a ∈ pending G result ((b, a) :: work) b :=
    mem_pending.mpr ⟨h.mem_moves hB hnone, Or.inr List.mem_cons_self⟩
  have hone : (pending G result ((b, a) :: work) b).card = 1 := by
    have heq := h.degree_eq b hb hnone
    omega
  have hwon := h.won_eq_none hb hnone
  refine h.decide hB hnone ?_ fun c hc => Function.update_of_ne hc _ _
  refine Game.Forces.of_forall hwon hne.symm ⟨a, h.mem_moves hB hnone⟩ fun d hd => ?_
  by_cases hpend : d ∈ pending G result ((b, a) :: work) b
  · obtain rfl := Finset.card_le_one.mp hone.le d hpend a hmem
    exact h.sound d ha p hlose
  · -- the result of every other move is known, and it is not the owner's
    cases hres : result d with
    | none => exact absurd (mem_pending.mpr ⟨hd, Or.inl hres⟩) hpend
    | some q =>
      have hq : q ≠ G.owner b := fun heq => h.lost b hb hnone d hd hpend (heq ▸ hres)
      exact h.sound d (hB.moves_mem b hb hwon d hd) p (htwo q p _ hq hne ▸ hres)

/-- **At first** the positions that are won have a result, and the moves into these are to be looked
at. -/
theorem init (hB : Backwards G S preds) (hresult : ∀ a ∈ S, result a = G.won a)
    (hwork : ∀ b a, (b, a) ∈ work ↔ a ∈ S ∧ G.won a ≠ none ∧ b ∈ preds a) (hnodup : work.Nodup)
    (hdegree : ∀ b ∈ S, G.won b = none → degree b = (G.moves b).card ∧ (G.moves b).Nonempty) :
    Inv G S preds result degree work := by
  have hall : ∀ b ∈ S, G.won b = none → pending G result work b = G.moves b := by
    intro b hb hnone
    refine Finset.filter_true_of_mem fun a ha => ?_
    have haS := hB.moves_mem b hb hnone a ha
    rw [hresult a haS]
    by_cases hwon : G.won a = none
    · exact Or.inl hwon
    · exact Or.inr ((hwork b a).mpr ⟨haS, hwon, (hB.mem_preds a haS b hb hnone).mpr ha⟩)
  constructor
  · intro a ha p hp
    rw [hresult a ha, hp]
  · intro a ha p hp
    rw [hresult a ha] at hp
    exact ⟨0, hp⟩
  · intro b a hba
    obtain ⟨ha, hwon, hpreds⟩ := (hwork b a).mp hba
    exact ⟨hB.preds_mem a ha b hpreds, ha, hpreds, by rwa [hresult a ha]⟩
  · exact hnodup
  · intro b hb hnone
    rw [hresult b hb] at hnone
    rw [hall b hb hnone]
    exact (hdegree b hb hnone).1
  · intro b hb hnone
    rw [hresult b hb] at hnone
    rw [(hdegree b hb hnone).1]
    exact_mod_cast Finset.card_pos.mpr (hdegree b hb hnone).2
  · intro b hb hnone a ha hpend
    rw [hresult b hb] at hnone
    rw [hall b hb hnone] at hpend
    exact absurd ha hpend

/-- A win that can be forced has been found. -/
theorem result_of_forces (hB : Backwards G S preds) (h : Inv G S preds result degree [])
    (ha : a ∈ S) (hforces : G.Forces p k a) : result a = some p := by
  induction k using Nat.strong_induction_on generalizing a with
  | _ k ih =>
    cases hres : result a with
    | some q =>
      obtain ⟨l, hl⟩ := h.sound a ha q hres
      rw [hl.unique hforces]
    | none =>
      rcases hforces.won_or_move with hwon | ⟨hwon, l, hl, ⟨rfl, b, hb, hforces⟩ | ⟨-, -, hforces⟩⟩
      · exact hres.symm.trans (h.won a ha p hwon)
      · -- the move that wins would have decided the position
        have hb' := ih l hl (hB.moves_mem a ha hwon b hb) hforces
        refine absurd hb' (h.lost a ha hres b hb fun hpend => ?_)
        rcases (mem_pending.mp hpend).2 with hnone | hmem
        · exact Option.some_ne_none _ (hb'.symm.trans hnone)
        · exact List.not_mem_nil hmem
      · -- one of the moves has no result
        have hpos := h.degree_pos a ha hres
        rw [h.degree_eq a ha hres] at hpos
        obtain ⟨b, hb⟩ := Finset.card_pos.mp (Int.natCast_pos.mp hpos)
        obtain ⟨hb, hnone | hmem⟩ := mem_pending.mp hb
        · have hb' := ih l hl (hB.moves_mem a ha hwon b hb) (hforces b hb)
          exact absurd (hb'.symm.trans hnone) (Option.some_ne_none _)
        · exact absurd hmem List.not_mem_nil

/-- **The results are the wins that can be forced.** -/
theorem result_iff (hB : Backwards G S preds) (h : Inv G S preds result degree []) (ha : a ∈ S) :
    result a = some p ↔ ∃ k, G.Forces p k a :=
  ⟨h.sound a ha p, fun ⟨_, hk⟩ => h.result_of_forces hB ha hk⟩

end Inv

end Retrograde

end Candcpp
