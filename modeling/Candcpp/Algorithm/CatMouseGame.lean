import Candcpp.Cpp.Loop
import Candcpp.Order.Retrograde

/-!
# The game of cat and mouse

The program `leetcode/dynamic_programming/913.cpp`: on a graph, a mouse and a cat move in turn. The
mouse wins at node 0, its hole, which the cat must not enter; the cat wins where it catches the
mouse. `catMouseGame` finds out from the end who wins from each position: it puts those that are won
in a queue, and for each position it takes out it looks at those that can lead there, which it
decides, or of which it counts down the moves that are left (`degrees`).

Its queue is that of a retrograde analysis of this game (`Candcpp.CatMouseGame.game`): what is still
to be looked at are the moves into the positions of the queue (`Candcpp.CatMouseGame.State`). Each
position is put in once, so the loop ends; and **the results are the wins that can be forced**
(`Candcpp.CatMouseGame.catMouseGame_iff`). The nodes are natural numbers, and a node has at most as
many neighbours as an `int` counts.
-/

namespace Candcpp

open Cpp Retrograde

namespace CatMouseGame

/-! ### The code -/

/-- Whose turn it is: `MOUSE_TURN` or `CAT_TURN`. -/
inductive Turn where
  | mouse : Turn
  | cat : Turn
  deriving DecidableEq, Repr

/-- A result: `DRAW`, `MOUSE_WIN` or `CAT_WIN`. -/
inductive Outcome where
  | draw : Outcome
  | mouseWin : Outcome
  | catWin : Outcome
  deriving DecidableEq, Repr

/-- A `tuple<int, int, int>`: where the mouse is, where the cat is, and whose turn it is. -/
abbrev Position := ℕ × ℕ × Turn

/-- A `vector<vector<vector<T>>>` of `n` times `n` times two elements. -/
structure Table (α : Type) where
  data : Position → α
  size : ℕ

namespace Table

variable {α : Type}

/-- `t[mouse][cat][turn]`, read. -/
def get (t : Table α) (p : Position) : Exec α :=
  if p.1 < t.size ∧ p.2.1 < t.size then pure (t.data p) else throw .outOfRange

/-- `t[mouse][cat][turn] = x`. -/
def put (t : Table α) (p : Position) (x : α) : Exec (Table α) :=
  if p.1 < t.size ∧ p.2.1 < t.size then
    pure { t with data := Function.update t.data p x }
  else
    throw .outOfRange

end Table

/-- The tables `degrees` and `results`, and the queue `qu`. -/
structure Search where
  degrees : Table ℤ
  results : Table Outcome
  qu : List Position

section Code

variable (graph : List (List ℕ))

/-- The body of the first two loops of `catMouseGame`. -/
def setDegree (i : ℕ) (degrees : Table ℤ) (j : ℕ) : Exec (Table ℤ) := do
  let ofMouse ← nth graph i
  let degrees ← degrees.put (i, j, .mouse) ofMouse.length
  let ofCat ← nth graph j
  degrees.put (i, j, .cat) ofCat.length

/-- The first two loops: what `degrees` is set to. -/
def setDegrees (degrees : Table ℤ) : Exec (Table ℤ) :=
  (List.range graph.length).foldlM (fun degrees i =>
    (List.range' 1 (graph.length - 1)).foldlM (setDegree graph i) degrees) degrees

/-- `degrees[i][node][CAT_TURN]--`. -/
def lowerDegree (node : ℕ) (degrees : Table ℤ) (i : ℕ) : Exec (Table ℤ) := do
  let degree ← degrees.get (i, node, .cat)
  degrees.put (i, node, .cat) (degree - 1)

/-- `for (int node : graph[0])`: the cat must not enter the hole. -/
def lowerDegrees (degrees : Table ℤ) : Exec (Table ℤ) := do
  let hole ← nth graph 0
  hole.foldlM (fun degrees node =>
    (List.range graph.length).foldlM (lowerDegree node) degrees) degrees

/-- The body of the two loops that start the queue: a result for both turns. -/
def start (result : Outcome) (s : Search) (mouse cat : ℕ) : Exec Search := do
  let results ← s.results.put (mouse, cat, .mouse) result
  let results ← results.put (mouse, cat, .cat) result
  pure { s with results := results, qu := s.qu ++ [(mouse, cat, .mouse), (mouse, cat, .cat)] }

/-- `GetPrevStates`. -/
def getPrevStates : Position → Exec (List Position)
  | (mouse, cat, turn) => do
    let prevTurn := if turn = .mouse then Turn.cat else Turn.mouse
    if prevTurn = .mouse then
      let prevs ← nth graph mouse
      pure (prevs.map fun prev => (prev, cat, prevTurn))
    else
      let prevs ← nth graph cat
      pure ((prevs.filter (· ≠ 0)).map fun prev => (mouse, prev, prevTurn))

/-- The body of the loop over `prevStates`. -/
def visitPrev (result : Outcome) (s : Search) (prev : Position) : Exec Search := do
  let prevResult ← s.results.get prev
  if prevResult = .draw then
    let prevTurn := prev.2.2
    if result = .mouseWin ∧ prevTurn = .mouse ∨ result = .catWin ∧ prevTurn = .cat then
      let results ← s.results.put prev result
      pure { s with results := results, qu := s.qu ++ [prev] }
    else
      let degree ← s.degrees.get prev
      let degrees ← s.degrees.put prev (degree - 1)
      if degree - 1 = 0 then
        let loseResult := if prevTurn = .mouse then Outcome.catWin else Outcome.mouseWin
        let results ← s.results.put prev loseResult
        pure { degrees := degrees, results := results, qu := s.qu ++ [prev] }
      else
        pure { s with degrees := degrees }
  else
    pure s

/-- `while (!qu.empty())`. -/
def queueLoop (s : Search) : Exec Search := do
  let +zeta queueLoop : type_of% queueLoop := by apply queueLoop
  match s.qu with
  | [] => pure s
  | position :: qu =>
    let result ← s.results.get position
    let prevStates ← getPrevStates graph position
    let s ← prevStates.foldlM (visitPrev result) { s with qu := qu }
    queueLoop s
partial_fixpoint

/-- `catMouseGame`, up to its `return`. -/
def solve : Exec Search := do
  let degrees ← setDegrees graph { data := fun _ => 0, size := graph.length }
  let degrees ← lowerDegrees graph degrees
  let s : Search :=
    { degrees := degrees, results := { data := fun _ => .draw, size := graph.length }, qu := [] }
  let s ← (List.range' 1 (graph.length - 1)).foldlM (fun s j => start .mouseWin s 0 j) s
  let s ← (List.range' 1 (graph.length - 1)).foldlM (fun s i => start .catWin s i i) s
  queueLoop graph s

/-- `catMouseGame`. -/
def catMouseGame : Exec Outcome := do
  let s ← solve graph
  s.results.get (1, 2, .mouse)

end Code

/-! ### The game -/

/-- The neighbours of a node. -/
def neighbours (graph : List (List ℕ)) (i : ℕ) : List ℕ := graph[i]?.getD []

/-- An undirected simple graph of at least three nodes, in which every node has a neighbour, and
every node other than the hole has a neighbour other than the hole. -/
structure Simple (graph : List (List ℕ)) : Prop where
  three_le : 3 ≤ graph.length
  lt_of_mem : ∀ i, ∀ j ∈ neighbours graph i, j < graph.length
  symm : ∀ i, ∀ j ∈ neighbours graph i, i ∈ neighbours graph j
  irrefl : ∀ i, i ∉ neighbours graph i
  nodup : ∀ i, (neighbours graph i).Nodup
  ne_nil : ∀ i < graph.length, neighbours graph i ≠ []
  exists_ne_zero : ∀ i < graph.length, i ≠ 0 → ∃ j ∈ neighbours graph i, j ≠ 0

/-- The moves of a position, in the order of the graph. -/
def movesOf (graph : List (List ℕ)) : Position → List Position
  | (mouse, cat, .mouse) => (neighbours graph mouse).map fun next => (next, cat, .cat)
  | (mouse, cat, .cat) =>
    ((neighbours graph cat).filter (· ≠ 0)).map fun next => (mouse, next, .mouse)

/-- **The game**: the mouse has won in the hole, and the cat where it is with the mouse. -/
def game (graph : List (List ℕ)) : Game Position Turn where
  owner := fun p => p.2.2
  won := fun p => if p.1 = 0 then some .mouse else if p.1 = p.2.1 then some .cat else none
  moves := fun p => (movesOf graph p).toFinset

/-- The positions of the game: the cat is not in the hole. -/
def positions (graph : List (List ℕ)) : Set Position :=
  {p | p.1 < graph.length ∧ 1 ≤ p.2.1 ∧ p.2.1 < graph.length}

/-- The positions that `GetPrevStates` finds. -/
def prevs (graph : List (List ℕ)) : Position → List Position
  | (mouse, cat, .mouse) =>
    ((neighbours graph cat).filter (· ≠ 0)).map fun prev => (mouse, prev, .cat)
  | (mouse, cat, .cat) => (neighbours graph mouse).map fun prev => (prev, cat, .mouse)

/-- Who wins with a result. -/
def Outcome.winner : Outcome → Option Turn
  | .draw => none
  | .mouseWin => some .mouse
  | .catWin => some .cat

/-! ### The moves back -/

variable {graph : List (List ℕ)} {i j m c : ℕ} {p q : Position} {t : Turn}

theorem nth_neighbours (h : i < graph.length) : nth graph i = pure (neighbours graph i) := by
  refine nth_eq ?_
  rw [neighbours, List.getElem?_eq_getElem h, Option.getD_some]

theorem getPrevStates_eq (h : p ∈ positions graph) :
    getPrevStates graph p = pure (prevs graph p) := by
  obtain ⟨m, c, t⟩ := p
  cases t with
  | mouse =>
    rw [getPrevStates]
    simp only [if_true, reduceCtorEq, if_false, nth_neighbours h.2.2, pure_bind, prevs]
  | cat =>
    rw [getPrevStates]
    simp only [if_true, reduceCtorEq, if_false, nth_neighbours h.1, pure_bind, prevs]

theorem neighbours_comm (hg : Simple graph) : i ∈ neighbours graph j ↔ j ∈ neighbours graph i :=
  ⟨hg.symm j i, hg.symm i j⟩

theorem mem_movesOf : q ∈ movesOf graph p ↔
    (p.2.2 = .mouse ∧ q.2.2 = .cat ∧ q.2.1 = p.2.1 ∧ q.1 ∈ neighbours graph p.1) ∨
      (p.2.2 = .cat ∧ q.2.2 = .mouse ∧ q.1 = p.1 ∧ q.2.1 ∈ neighbours graph p.2.1 ∧ q.2.1 ≠ 0) := by
  obtain ⟨m, c, t⟩ := p
  obtain ⟨m', c', t'⟩ := q
  cases t with
  | mouse =>
    simp only [movesOf, List.mem_map, Prod.mk.injEq, reduceCtorEq, false_and, or_false, true_and]
    constructor
    · rintro ⟨x, hx, rfl, rfl, rfl⟩
      exact ⟨rfl, rfl, hx⟩
    · rintro ⟨rfl, rfl, hx⟩
      exact ⟨m', hx, rfl, rfl, rfl⟩
  | cat =>
    simp only [movesOf, List.mem_map, List.mem_filter, decide_eq_true_eq, Prod.mk.injEq,
      reduceCtorEq, false_and, false_or, true_and]
    constructor
    · rintro ⟨x, ⟨hx, hne⟩, rfl, rfl, rfl⟩
      exact ⟨rfl, rfl, hx, hne⟩
    · rintro ⟨rfl, rfl, hx, hne⟩
      exact ⟨c', ⟨hx, hne⟩, rfl, rfl, rfl⟩

theorem mem_prevs : p ∈ prevs graph q ↔
    (p.2.2 = .mouse ∧ q.2.2 = .cat ∧ q.2.1 = p.2.1 ∧ p.1 ∈ neighbours graph q.1) ∨
      (p.2.2 = .cat ∧ q.2.2 = .mouse ∧ q.1 = p.1 ∧ p.2.1 ∈ neighbours graph q.2.1 ∧ p.2.1 ≠ 0) := by
  obtain ⟨m, c, t⟩ := p
  obtain ⟨m', c', t'⟩ := q
  cases t' with
  | mouse =>
    simp only [prevs, List.mem_map, List.mem_filter, decide_eq_true_eq, Prod.mk.injEq,
      reduceCtorEq, false_and, and_false, false_or, true_and]
    constructor
    · rintro ⟨x, ⟨hx, hne⟩, rfl, rfl, rfl⟩
      exact ⟨rfl, rfl, hx, hne⟩
    · rintro ⟨rfl, rfl, hx, hne⟩
      exact ⟨c, ⟨hx, hne⟩, rfl, rfl, rfl⟩
  | cat =>
    simp only [prevs, List.mem_map, Prod.mk.injEq, reduceCtorEq, false_and, and_false, or_false,
      true_and]
    constructor
    · rintro ⟨x, hx, rfl, rfl, rfl⟩
      exact ⟨rfl, rfl, hx⟩
    · rintro ⟨rfl, rfl, hx⟩
      exact ⟨m, hx, rfl, rfl, rfl⟩

theorem won_zero : (game graph).won (0, c, t) = some .mouse := rfl

theorem won_self (h : m ≠ 0) : (game graph).won (m, m, t) = some .cat :=
  (if_neg h).trans (if_pos rfl)

/-- Who has not won, and not lost, can move. -/
theorem moves_nonempty (hg : Simple graph) (hp : p ∈ positions graph)
    (hnone : (game graph).won p = none) : ((game graph).moves p).Nonempty := by
  obtain ⟨m, c, t⟩ := p
  cases t with
  | mouse =>
    obtain ⟨x, hx⟩ := List.exists_mem_of_ne_nil _ (hg.ne_nil m hp.1)
    exact ⟨(x, c, .cat), List.mem_toFinset.mpr (mem_movesOf.mpr (Or.inl ⟨rfl, rfl, rfl, hx⟩))⟩
  | cat =>
    obtain ⟨x, hx, hne⟩ := hg.exists_ne_zero c hp.2.2 (Nat.one_le_iff_ne_zero.mp hp.2.1)
    exact ⟨(m, x, .mouse),
      List.mem_toFinset.mpr (mem_movesOf.mpr (Or.inr ⟨rfl, rfl, rfl, hx, hne⟩))⟩

/-- **The positions back** are those from which a move leads to a position. -/
theorem backwards (hg : Simple graph) : Backwards (game graph) (positions graph) (prevs graph) where
  nodup := by
    rintro ⟨m, c, t⟩ -
    cases t with
    | mouse => exact ((hg.nodup c).filter _).map fun x y h => (Prod.mk.inj (Prod.mk.inj h).2).1
    | cat => exact (hg.nodup m).map fun x y h => (Prod.mk.inj h).1
  preds_mem := by
    rintro q ⟨hm, hc, hc'⟩ p hp
    rcases mem_prevs.mp hp with ⟨-, -, heq, hx⟩ | ⟨-, -, heq, hx, hne⟩
    · exact ⟨hg.lt_of_mem _ _ hx, heq ▸ hc, heq ▸ hc'⟩
    · exact ⟨heq ▸ hm, Nat.one_le_iff_ne_zero.mpr hne, hg.lt_of_mem _ _ hx⟩
  moves_mem := by
    rintro p ⟨hm, hc, hc'⟩ - q hq
    rcases mem_movesOf.mp (List.mem_toFinset.mp hq) with ⟨-, -, heq, hx⟩ | ⟨-, -, heq, hx, hne⟩
    · exact ⟨hg.lt_of_mem _ _ hx, heq.symm ▸ hc, heq.symm ▸ hc'⟩
    · exact ⟨heq.symm ▸ hm, Nat.one_le_iff_ne_zero.mpr hne, hg.lt_of_mem _ _ hx⟩
  mem_preds := by
    rintro q ⟨-, hq, -⟩ p ⟨-, hp, -⟩ -
    rw [game, List.mem_toFinset, mem_movesOf, mem_prevs, neighbours_comm hg,
      neighbours_comm hg (i := p.2.1)]
    have hne : p.2.1 ≠ 0 ↔ q.2.1 ≠ 0 :=
      iff_of_true (Nat.one_le_iff_ne_zero.mp hp) (Nat.one_le_iff_ne_zero.mp hq)
    rw [hne]

/-! ### A turn of the queue -/

namespace Table

variable {α : Type} {tab : Table α}

theorem get_eq (h : p ∈ positions graph) (hsize : tab.size = graph.length) :
    tab.get p = pure (tab.data p) := by
  rw [get, if_pos (hsize.symm ▸ ⟨h.1, h.2.2⟩)]

theorem put_eq (h : p ∈ positions graph) (hsize : tab.size = graph.length) (x : α) :
    tab.put p x = pure { tab with data := Function.update tab.data p x } := by
  rw [put, if_pos (hsize.symm ▸ ⟨h.1, h.2.2⟩)]

end Table

/-- Who wins from the positions by what has been found out. -/
def winners (s : Search) (p : Position) : Option Turn := (s.results.data p).winner

/-- **The invariant**: what is still to be looked at are the moves of `front` and those into the
positions of the queue. The positions that have been put in the queue, of which `popped` have been
taken out, have a result. -/
structure State (graph : List (List ℕ)) (front : List (Position × Position))
    (popped : List Position) (s : Search) : Prop where
  degrees_size : s.degrees.size = graph.length
  results_size : s.results.size = graph.length
  inv : Inv (game graph) (positions graph) (prevs graph) (winners s) s.degrees.data
    (front ++ intoAll (prevs graph) s.qu)
  nodup : (popped ++ s.qu).Nodup
  decided : ∀ p ∈ popped ++ s.qu, p ∈ positions graph ∧ s.results.data p ≠ .draw

variable {front : List (Position × Position)} {popped : List Position} {s : Search}
  {result : Outcome} {a b : Position}

@[simp] theorem winner_eq_none : result.winner = none ↔ result = .draw := by
  cases result <;> decide

theorem mouseWin_iff : result = .mouseWin ↔ result.winner = some .mouse := by
  cases result <;> decide

theorem catWin_iff : result = .catWin ↔ result.winner = some .cat := by
  cases result <;> decide

/-- `canWin`. -/
theorem canWin_iff : (result = .mouseWin ∧ t = .mouse ∨ result = .catWin ∧ t = .cat) ↔
    result.winner = some t := by
  cases result <;> cases t <;> decide

/-- The result of a player who loses is the win of the other one. -/
theorem loseResult_eq (hne : result ≠ .draw) (ht : result.winner ≠ some t) :
    (if t = .mouse then Outcome.catWin else Outcome.mouseWin) = result := by
  cases t <;> cases result <;> first | rfl | exact absurd rfl hne | exact absurd rfl ht

theorem two_turns (t t' u : Turn) (h : t ≠ u) (h' : t' ≠ u) : t = t' := by
  cases t <;> cases t' <;> cases u <;> first | rfl | exact absurd rfl h | exact absurd rfl h'

/-- **A position is decided** and put in the queue. -/
theorem State.push (h : State graph ((b, a) :: front) popped s) (hb : b ∈ positions graph)
    (hdraw : s.results.data b = .draw) (hne : result ≠ .draw) {degrees : Table ℤ}
    (hsize : degrees.size = graph.length)
    (hinv : Inv (game graph) (positions graph) (prevs graph)
      (Function.update (winners s) b result.winner) degrees.data
      (front ++ intoAll (prevs graph) s.qu ++ (prevs graph b).map fun c => (c, b))) :
    State graph front popped
      { degrees := degrees,
        results := { s.results with data := Function.update s.results.data b result },
        qu := s.qu ++ [b] } where
  degrees_size := hsize
  results_size := h.results_size
  inv := by
    rw [intoAll_snoc, ← List.append_assoc]
    convert hinv using 1
    exact Function.comp_update Outcome.winner _ _ _
  nodup := by
    -- all that has been in the queue has a result
    have hnotMem : b ∉ popped ++ s.qu := fun hmem => (h.decided b hmem).2 hdraw
    rw [← List.append_assoc]
    exact List.Nodup.append h.nodup (List.nodup_singleton b) (by simpa using hnotMem)
  decided := by
    intro p hp
    rw [← List.append_assoc, List.mem_append, List.mem_singleton] at hp
    rcases eq_or_ne p b with rfl | hpb
    · have hnew : Function.update s.results.data p result p ≠ .draw := by
        rwa [Function.update_self]
      exact ⟨hb, hnew⟩
    · obtain ⟨hmem, hold⟩ := h.decided p (hp.resolve_right hpb)
      have hkeep : Function.update s.results.data b result p ≠ .draw := by
        rwa [Function.update_of_ne hpb]
      exact ⟨hmem, hkeep⟩

/-- **A position back**: it is left alone, or decided, or its counter is lowered. -/
theorem State.visitPrev (hg : Simple graph) (h : State graph ((b, a) :: front) popped s)
    (hresult : s.results.data a = result) :
    ∃ s', visitPrev result s b = pure s' ∧ State graph front popped s' ∧
      s'.results.data a = result := by
  obtain ⟨hb, -, -, hsome⟩ := h.inv.work_mem b a List.mem_cons_self
  have hne : result ≠ .draw := fun hdraw => hsome (winner_eq_none.mpr (hresult.trans hdraw))
  have hwinner : winners s a = result.winner := congrArg Outcome.winner hresult
  rw [CatMouseGame.visitPrev, Table.get_eq hb h.results_size, pure_bind]
  by_cases hdraw : s.results.data b = .draw
  · have hnone : winners s b = none := winner_eq_none.mpr hdraw
    have hkeep : Function.update s.results.data b result a = result := by
      rwa [Function.update_of_ne]
      rintro rfl
      exact hne (hresult.symm.trans hdraw)
    rw [if_pos hdraw]
    simp only [canWin_iff]
    by_cases hwin : result.winner = some b.2.2
    · rw [if_pos hwin, Table.put_eq hb h.results_size, pure_bind]
      refine ⟨_, rfl, h.push hb hdraw hne h.degrees_size ?_, hkeep⟩
      rw [hwin]
      exact h.inv.win (backwards hg) hnone (hwinner.trans hwin)
    · have hlose : winners s a ≠ some ((game graph).owner b) := hwinner.trans_ne hwin
      rw [if_neg hwin, Table.get_eq hb h.degrees_size, pure_bind, Table.put_eq hb h.degrees_size,
        pure_bind]
      by_cases hzero : s.degrees.data b - 1 = 0
      · rw [if_pos hzero, loseResult_eq hne hwin, Table.put_eq hb h.results_size, pure_bind]
        refine ⟨_, rfl, h.push hb hdraw hne h.degrees_size ?_, hkeep⟩
        obtain ⟨p, hp⟩ := Option.ne_none_iff_exists'.mp hsome
        rw [← hwinner, hp]
        rw [hp, Ne, Option.some.injEq] at hlose
        exact h.inv.lose (backwards hg) two_turns hnone hp hlose hzero
      · rw [if_neg hzero]
        exact ⟨_, rfl, ⟨h.degrees_size, h.results_size,
          h.inv.lower (backwards hg) hnone hlose hzero, h.nodup, h.decided⟩, hresult⟩
  · rw [if_neg hdraw]
    exact ⟨s, rfl, ⟨h.degrees_size, h.results_size,
      h.inv.skip (mt winner_eq_none.mp hdraw), h.nodup, h.decided⟩, hresult⟩

/-- **The loop over the positions back returns.** -/
theorem State.visitAll (hg : Simple graph) {rest : List Position}
    (h : State graph (rest.map fun b => (b, a)) popped s) (hresult : s.results.data a = result) :
    ∃ s', rest.foldlM (CatMouseGame.visitPrev result) s = pure s' ∧ State graph [] popped s' := by
  induction rest generalizing s with
  | nil => exact ⟨s, rfl, h⟩
  | cons b rest ih =>
    obtain ⟨s', hvisit, h', hresult'⟩ := h.visitPrev hg hresult
    obtain ⟨s'', hfold, h''⟩ := ih h' hresult'
    exact ⟨s'', by rw [List.foldlM_cons, hvisit, pure_bind, hfold], h''⟩

/-- All positions, in a list. -/
def allPositions (n : ℕ) : List Position :=
  (List.range n) ×ˢ ((List.range n) ×ˢ [Turn.mouse, Turn.cat])

/-- No more positions are put in the queue than there are. -/
theorem State.length_le (h : State graph front popped s) :
    (popped ++ s.qu).length ≤ (allPositions graph.length).length := by
  refine (h.nodup.subperm fun p hp => ?_).length_le
  obtain ⟨⟨hm, -, hc⟩, -⟩ := h.decided p hp
  refine List.mem_product.mpr ⟨List.mem_range.mpr hm, List.mem_product.mpr
    ⟨List.mem_range.mpr hc, ?_⟩⟩
  cases p.2.2 with
  | mouse => exact List.mem_cons_self
  | cat => exact List.mem_cons_of_mem _ List.mem_cons_self

/-- **The loop over the queue returns**, and the queue is empty. -/
theorem State.queueLoop (hg : Simple graph) (h : State graph [] popped s) :
    ∃ s' popped', queueLoop graph s = pure s' ∧ State graph [] popped' s' ∧ s'.qu = [] := by
  -- each turn takes a position out, and there are finitely many
  induction hk : (allPositions graph.length).length - popped.length generalizing popped s with
  | zero =>
    have hlen := h.length_le
    rw [List.length_append] at hlen
    have hqu : s.qu = [] := List.eq_nil_of_length_eq_zero (by omega)
    refine ⟨s, popped, ?_, h, hqu⟩
    rw [CatMouseGame.queueLoop, hqu]
  | succ k ih =>
    cases hqu : s.qu with
    | nil =>
      refine ⟨s, popped, ?_, h, hqu⟩
      rw [CatMouseGame.queueLoop, hqu]
    | cons p qu =>
      have hp : p ∈ positions graph := (h.decided p (by simp [hqu])).1
      have hnext : State graph ((prevs graph p).map fun b => (b, p)) (popped ++ [p])
          { s with qu := qu } := by
        obtain ⟨hd, hr, hinv, hnodup, hdecided⟩ := h
        rw [hqu] at hinv hnodup hdecided
        exact ⟨hd, hr, hinv, by rwa [List.append_assoc], by rwa [List.append_assoc]⟩
      obtain ⟨s', hvisit, h'⟩ := hnext.visitAll hg rfl
      obtain ⟨s'', popped', hloop, h''⟩ := ih h' (by
        rw [List.length_append, List.length_singleton]
        omega)
      refine ⟨s'', popped', ?_, h''⟩
      rw [CatMouseGame.queueLoop, hqu]
      dsimp only
      rw [Table.get_eq hp h.results_size, pure_bind, getPrevStates_eq hp, pure_bind]
      exact Exec.bind_eq_pure.mpr ⟨s', hvisit, hloop⟩

/-! ### The counters at the start -/

/-- How many neighbours the player has whose turn it is. -/
def lengthOf (graph : List (List ℕ)) (p : Position) : ℤ :=
  (neighbours graph (if p.2.2 = .mouse then p.1 else p.2.1)).length

variable {degrees : Table ℤ}

theorem mem_range' : j ∈ List.range' 1 (graph.length - 1) ↔ 1 ≤ j ∧ j < graph.length := by
  rw [List.mem_range'_1]
  omega

/-- A value that is right where it is written does not harm elsewhere. -/
theorem update_eq {f g : Position → ℤ} (h : p ≠ q → g p = f p) :
    Function.update g q (f q) p = f p := by
  rcases eq_or_ne p q with rfl | hne
  · exact Function.update_self ..
  · exact (Function.update_of_ne hne ..).trans (h hne)

/-- A table that has the value of `f` at the positions of a set. -/
def Filled (graph : List (List ℕ)) (f : Position → ℤ) (P : Position → Prop) (degrees : Table ℤ) :
    Prop :=
  degrees.size = graph.length ∧ ∀ p ∈ positions graph, P p → degrees.data p = f p

theorem Filled.mono {f : Position → ℤ} {P Q : Position → Prop} (h : Filled graph f P degrees)
    (hQ : ∀ p ∈ positions graph, Q p → P p) : Filled graph f Q degrees :=
  ⟨h.1, fun p hp hmem => h.2 p hp (hQ p hp hmem)⟩

theorem mem_snoc {l : List ℕ} : i ∈ l ++ [j] ↔ i ∈ l ∨ i = j := by
  rw [List.mem_append, List.mem_singleton]

theorem setDegree_eq {P : Position → Prop} (hi : i < graph.length) (hj : 1 ≤ j ∧ j < graph.length)
    (h : Filled graph (lengthOf graph) P degrees) :
    ∃ degrees', setDegree graph i degrees j = pure degrees' ∧
      Filled graph (lengthOf graph) (fun p => P p ∨ (p.1 = i ∧ p.2.1 = j)) degrees' := by
  obtain ⟨hsize, hdata⟩ := h
  have hmouse : (i, j, Turn.mouse) ∈ positions graph := ⟨hi, hj⟩
  have hcat : (i, j, Turn.cat) ∈ positions graph := ⟨hi, hj⟩
  rw [setDegree, nth_neighbours hi, pure_bind, Table.put_eq hmouse hsize, pure_bind,
    nth_neighbours hj.2, pure_bind, Table.put_eq hcat (by exact hsize)]
  refine ⟨_, rfl, hsize, fun p hp hmem => ?_⟩
  refine update_eq (f := lengthOf graph) fun hne => update_eq (f := lengthOf graph) fun hne' => ?_
  refine hdata p hp (hmem.resolve_right ?_)
  -- the two values that have been written
  obtain ⟨m, c, t⟩ := p
  rintro ⟨rfl, rfl⟩
  cases t with
  | mouse => exact hne' rfl
  | cat => exact hne rfl

theorem mem_of_snoc {l l' : List ℕ} (h : l ++ [j] <+: l') : j ∈ l' :=
  h.subset (List.mem_append_right _ List.mem_cons_self)

theorem notMem_of_snoc {l l' : List ℕ} (h : l ++ [j] <+: l') (hnodup : l'.Nodup) : j ∉ l := by
  have hl := h.sublist.nodup hnodup
  rw [← List.concat_eq_append, List.nodup_concat] at hl
  exact hl.1

/-- The inner one of the first two loops. -/
theorem setDegreesRow_eq {is : List ℕ} (hi : i < graph.length)
    (h : Filled graph (lengthOf graph) (fun p => p.1 ∈ is) degrees) :
    ∃ degrees', (List.range' 1 (graph.length - 1)).foldlM (setDegree graph i) degrees =
        pure degrees' ∧
      Filled graph (lengthOf graph) (fun p => p.1 ∈ is ++ [i]) degrees' := by
  obtain ⟨degrees', hloop, h'⟩ := foldlM_eq (l := List.range' 1 (graph.length - 1))
    (fun js => Filled graph (lengthOf graph) fun p => p.1 ∈ is ∨ (p.1 = i ∧ p.2.1 ∈ js))
    (h.mono fun p _ hmem => hmem.resolve_right fun hi => nomatch hi.2)
    (fun js j degrees hpre h => by
      obtain ⟨degrees', hset, h'⟩ := setDegree_eq hi (mem_range'.mp (mem_of_snoc hpre)) h
      refine ⟨degrees', hset, h'.mono fun p _ hmem => ?_⟩
      rcases hmem with hmem | ⟨hpi, hmem⟩
      · exact Or.inl (Or.inl hmem)
      · exact (mem_snoc.mp hmem).imp (fun hmem => Or.inr ⟨hpi, hmem⟩) fun hpj => ⟨hpi, hpj⟩)
  refine ⟨degrees', hloop, h'.mono fun p hp hmem => ?_⟩
  exact (mem_snoc.mp hmem).imp_right fun hi => ⟨hi, mem_range'.mpr hp.2⟩

/-- **The first two loops** count the neighbours. -/
theorem setDegrees_eq (hsize : degrees.size = graph.length) :
    ∃ degrees', setDegrees graph degrees = pure degrees' ∧
      Filled graph (lengthOf graph) (fun _ => True) degrees' := by
  obtain ⟨degrees', hloop, h⟩ := foldlM_eq (l := List.range graph.length)
    (fun is => Filled graph (lengthOf graph) fun p => p.1 ∈ is) ⟨hsize, fun _ _ h => nomatch h⟩
    (fun is i degrees hpre => setDegreesRow_eq (List.mem_range.mp (mem_of_snoc hpre)))
  exact ⟨degrees', hloop, h.mono fun p hp _ => List.mem_range.mpr hp.1⟩

/-- How many neighbours the player has, of which the hole does not count for the cat on some of the
nodes. -/
def lowered (graph : List (List ℕ)) (nodes : List ℕ) (p : Position) : ℤ :=
  lengthOf graph p - if p.2.2 = .cat ∧ p.2.1 ∈ nodes then 1 else 0

/-- The counters where the loop over the mouse's nodes has come to some of them. -/
def lowering (graph : List (List ℕ)) (nodes : List ℕ) (node : ℕ) (is : List ℕ) (p : Position) : ℤ :=
  if p.1 ∈ is then lowered graph (nodes ++ [node]) p else lowered graph nodes p

/-- One more node changes the counters of the cat there. -/
theorem lowered_snoc {nodes : List ℕ} {node : ℕ} (h : ¬(p.2.1 = node ∧ p.2.2 = .cat)) :
    lowered graph (nodes ++ [node]) p = lowered graph nodes p := by
  rw [lowered, lowered]
  refine congrArg _ (if_congr ?_ rfl rfl)
  rw [mem_snoc, and_congr_right_iff]
  exact fun hcat => or_iff_left fun hnode => h ⟨hnode, hcat⟩

theorem lowerDegree_eq {nodes is : List ℕ} {node : ℕ} (hi : i < graph.length)
    (hnode : 1 ≤ node ∧ node < graph.length) (hnotMem : i ∉ is) (hnodes : node ∉ nodes)
    (h : Filled graph (lowering graph nodes node is) (fun _ => True) degrees) :
    ∃ degrees', lowerDegree node degrees i = pure degrees' ∧
      Filled graph (lowering graph nodes node (is ++ [i])) (fun _ => True) degrees' := by
  obtain ⟨hsize, hdata⟩ := h
  have hq : (i, node, Turn.cat) ∈ positions graph := ⟨hi, hnode⟩
  have hnew : degrees.data (i, node, .cat) - 1 =
      lowering graph nodes node (is ++ [i]) (i, node, .cat) := by
    rw [hdata _ hq trivial, lowering, lowering, if_neg hnotMem, if_pos (mem_snoc.mpr (Or.inr rfl)),
      lowered, lowered, if_neg fun h => hnodes h.2, if_pos ⟨rfl, mem_snoc.mpr (Or.inr rfl)⟩,
      sub_zero]
  rw [lowerDegree, Table.get_eq hq hsize, pure_bind, Table.put_eq hq hsize, hnew]
  refine ⟨_, rfl, hsize, fun p hp _ => ?_⟩
  refine update_eq (f := lowering graph nodes node (is ++ [i])) fun hne => ?_
  rw [hdata p hp trivial, lowering, lowering]
  by_cases his : p.1 ∈ is
  · rw [if_pos his, if_pos (mem_snoc.mpr (Or.inl his))]
  · by_cases hpi : p.1 = i
    · rw [if_neg his, if_pos (mem_snoc.mpr (Or.inr hpi)), lowered_snoc]
      rintro ⟨hpc, hpt⟩
      exact hne (Prod.ext hpi (Prod.ext hpc hpt))
    · rw [if_neg his, if_neg (mt mem_snoc.mp (not_or.mpr ⟨his, hpi⟩))]

/-- The inner one of the loops over the neighbours of the hole. -/
theorem lowerDegreesRow_eq {nodes : List ℕ} {node : ℕ} (hnode : 1 ≤ node ∧ node < graph.length)
    (hnodes : node ∉ nodes) (h : Filled graph (lowered graph nodes) (fun _ => True) degrees) :
    ∃ degrees', (List.range graph.length).foldlM (lowerDegree node) degrees = pure degrees' ∧
      Filled graph (lowered graph (nodes ++ [node])) (fun _ => True) degrees' := by
  obtain ⟨degrees', hloop, hsize, hdata⟩ := foldlM_eq (l := List.range graph.length)
    (fun is => Filled graph (lowering graph nodes node is) fun _ => True) ⟨h.1, h.2⟩
    (fun is i degrees hpre => lowerDegree_eq (List.mem_range.mp (mem_of_snoc hpre)) hnode
      (notMem_of_snoc hpre List.nodup_range) hnodes)
  refine ⟨degrees', hloop, hsize, fun p hp hmem => ?_⟩
  rw [hdata p hp hmem, lowering, if_pos (List.mem_range.mpr hp.1)]

/-- **The loops over the neighbours of the hole** take it from the moves of the cat. -/
theorem lowerDegrees_eq (hg : Simple graph)
    (h : Filled graph (lengthOf graph) (fun _ => True) degrees) :
    ∃ degrees', lowerDegrees graph degrees = pure degrees' ∧
      Filled graph (lowered graph (neighbours graph 0)) (fun _ => True) degrees' := by
  have hhole : nth graph 0 = pure (neighbours graph 0) :=
    nth_neighbours (Nat.zero_lt_of_lt hg.three_le)
  have hstart : Filled graph (lowered graph []) (fun _ => True) degrees := by
    refine ⟨h.1, fun p hp hmem => ?_⟩
    rw [h.2 p hp hmem, lowered, if_neg fun h => List.not_mem_nil h.2, sub_zero]
  obtain ⟨degrees', hloop, h'⟩ := foldlM_eq (l := neighbours graph 0)
    (fun nodes => Filled graph (lowered graph nodes) fun _ => True) hstart
    (fun nodes node degrees hpre => by
      have hmem := mem_of_snoc hpre
      have hne : node ≠ 0 := fun heq => hg.irrefl 0 (heq ▸ hmem)
      exact lowerDegreesRow_eq ⟨Nat.one_le_iff_ne_zero.mpr hne, hg.lt_of_mem 0 node hmem⟩
        (notMem_of_snoc hpre (hg.nodup 0)))
  refine ⟨degrees', ?_, h'⟩
  rw [lowerDegrees, hhole, pure_bind, hloop]

theorem length_filter_ne {l : List ℕ} (h : l.Nodup) :
    ((l.filter (· ≠ 0)).length : ℤ) = l.length - if 0 ∈ l then 1 else 0 := by
  have herase : l.filter (· ≠ 0) = l.erase 0 := by
    rw [h.erase_eq_filter]
    exact List.filter_congr fun x _ => Bool.eq_iff_iff.mpr (by rw [decide_eq_true_eq, bne_iff_ne])
  rw [herase, List.length_erase]
  split_ifs with hmem
  · rw [Nat.cast_pred (List.length_pos_of_mem hmem)]
  · rw [sub_zero]

/-- **The counters are the numbers of moves.** -/
theorem lowered_eq_card (hg : Simple graph) (p : Position) :
    lowered graph (neighbours graph 0) p = ((game graph).moves p).card := by
  obtain ⟨m, c, t⟩ := p
  cases t with
  | mouse =>
    have hnodup : (movesOf graph (m, c, .mouse)).Nodup :=
      (hg.nodup m).map fun x y h => (Prod.mk.inj h).1
    have hlength : (movesOf graph (m, c, .mouse)).length = (neighbours graph m).length :=
      List.length_map _
    rw [game, List.toFinset_card_of_nodup hnodup, hlength, lowered, lengthOf, if_pos rfl,
      if_neg (by simp), sub_zero]
  | cat =>
    have hnodup : (movesOf graph (m, c, .cat)).Nodup :=
      ((hg.nodup c).filter _).map fun x y h => (Prod.mk.inj (Prod.mk.inj h).2).1
    have hlength : (movesOf graph (m, c, .cat)).length =
        ((neighbours graph c).filter (· ≠ 0)).length := List.length_map _
    rw [game, List.toFinset_card_of_nodup hnodup, hlength, length_filter_ne (hg.nodup c), lowered,
      lengthOf, if_neg (by simp)]
    simp only [true_and, neighbours_comm hg]

/-! ### The queue at the start -/

/-- Both turns, where the mouse and the cat are at the nodes of a pair. -/
def bothTurns (x : ℕ × ℕ) : List Position := [(x.1, x.2, .mouse), (x.1, x.2, .cat)]

/-- The queue once the positions of some pairs of nodes are in it, which are won. -/
structure Started (graph : List (List ℕ)) (degrees : Table ℤ) (pairs : List (ℕ × ℕ)) (s : Search) :
    Prop where
  degrees_eq : s.degrees = degrees
  results_size : s.results.size = graph.length
  qu_eq : s.qu = pairs.flatMap bothTurns
  winners_eq : ∀ p, winners s p = if p ∈ s.qu then (game graph).won p else none

theorem mem_bothTurns {pairs : List (ℕ × ℕ)} :
    p ∈ pairs.flatMap bothTurns ↔ (p.1, p.2.1) ∈ pairs := by
  obtain ⟨m, c, t⟩ := p
  rw [List.mem_flatMap]
  constructor
  · rintro ⟨⟨m', c'⟩, hmem, hp⟩
    rcases List.mem_pair.mp hp with heq | heq
    · obtain ⟨rfl, rfl, -⟩ : m = m' ∧ c = c' ∧ t = .mouse := by simpa using heq
      exact hmem
    · obtain ⟨rfl, rfl, -⟩ : m = m' ∧ c = c' ∧ t = .cat := by simpa using heq
      exact hmem
  · intro hmem
    refine ⟨(m, c), hmem, ?_⟩
    cases t with
    | mouse => exact List.mem_cons_self
    | cat => exact List.mem_cons_of_mem _ List.mem_cons_self

theorem start_eq {pairs : List (ℕ × ℕ)} (hm : m < graph.length) (hc : 1 ≤ c ∧ c < graph.length)
    (hwon : ∀ t, (game graph).won (m, c, t) = result.winner)
    (h : Started graph degrees pairs s) :
    ∃ s', start result s m c = pure s' ∧ Started graph degrees (pairs ++ [(m, c)]) s' := by
  have hmouse : (m, c, Turn.mouse) ∈ positions graph := ⟨hm, hc⟩
  have hcat : (m, c, Turn.cat) ∈ positions graph := ⟨hm, hc⟩
  rw [start, Table.put_eq hmouse h.results_size, pure_bind,
    Table.put_eq hcat (by exact h.results_size), pure_bind]
  refine ⟨_, rfl, h.degrees_eq, h.results_size, ?_, fun p => ?_⟩
  · rw [List.flatMap_append, List.flatMap_singleton, ← h.qu_eq]
    rfl
  · have hmem : p ∈ s.qu ++ [(m, c, .mouse), (m, c, .cat)] ↔
        p ∈ s.qu ∨ p = (m, c, .mouse) ∨ p = (m, c, .cat) := by
      rw [List.mem_append, List.mem_pair]
    show (Function.update (Function.update s.results.data (m, c, .mouse) result) (m, c, .cat)
      result p).winner = if p ∈ s.qu ++ [(m, c, .mouse), (m, c, .cat)] then _ else none
    rcases eq_or_ne p (m, c, .cat) with rfl | hne
    · rw [Function.update_self, if_pos (hmem.mpr (Or.inr (Or.inr rfl))), hwon]
    rw [Function.update_of_ne hne]
    rcases eq_or_ne p (m, c, .mouse) with rfl | hne'
    · rw [Function.update_self, if_pos (hmem.mpr (Or.inr (Or.inl rfl))), hwon]
    rw [Function.update_of_ne hne']
    have hold : p ∈ s.qu ++ [(m, c, .mouse), (m, c, .cat)] ↔ p ∈ s.qu :=
      hmem.trans (or_iff_left (not_or.mpr ⟨hne', hne⟩))
    exact (h.winners_eq p).trans (if_congr hold.symm rfl rfl)

/-- The pairs of nodes at which the mouse has won, and those at which the cat has. -/
def wonPairs (n : ℕ) : List (ℕ × ℕ) :=
  (List.range' 1 (n - 1)).map (fun j => (0, j)) ++ (List.range' 1 (n - 1)).map fun i => (i, i)

theorem nodup_wonPairs (n : ℕ) : (wonPairs n).Nodup := by
  refine List.Nodup.append ?_ ?_ ?_
  · exact (List.nodup_range' 1).map fun i j h => (Prod.mk.inj h).2
  · exact (List.nodup_range' 1).map fun i j h => (Prod.mk.inj h).2
  · intro x hx hx'
    obtain ⟨j, -, rfl⟩ := List.mem_map.mp hx
    obtain ⟨i, hi, heq⟩ := List.mem_map.mp hx'
    have hpos := (List.mem_range'_1.mp hi).1
    have hzero : i = 0 := (Prod.mk.inj heq).1
    omega

/-- **At first** the positions that are won are in the queue. -/
theorem mem_wonPairs (hp : p ∈ positions graph) :
    (p.1, p.2.1) ∈ wonPairs graph.length ↔ (game graph).won p ≠ none := by
  obtain ⟨m, c, t⟩ := p
  obtain ⟨hm, hc⟩ : m < graph.length ∧ 1 ≤ c ∧ c < graph.length := hp
  have hwon : (game graph).won (m, c, t) ≠ none ↔ m = 0 ∨ m = c := by
    simp only [game]
    by_cases hzero : m = 0
    · exact iff_of_true (by rw [if_pos hzero]; exact Option.some_ne_none _) (Or.inl hzero)
    by_cases hcaught : m = c
    · refine iff_of_true ?_ (Or.inr hcaught)
      rw [if_neg hzero, if_pos hcaught]
      exact Option.some_ne_none _
    · rw [if_neg hzero, if_neg hcaught]
      exact iff_of_false (not_not.mpr rfl) (not_or.mpr ⟨hzero, hcaught⟩)
  rw [hwon, wonPairs, List.mem_append, List.mem_map, List.mem_map]
  constructor
  · rintro (⟨j, -, heq⟩ | ⟨i, -, heq⟩)
    · exact Or.inl (Prod.mk.inj heq).1.symm
    · exact Or.inr ((Prod.mk.inj heq).1.symm.trans (Prod.mk.inj heq).2)
  · rintro (rfl | rfl)
    · exact Or.inl ⟨c, mem_range'.mpr hc, rfl⟩
    · exact Or.inr ⟨m, mem_range'.mpr hc, rfl⟩

/-- **The loops that start the queue return.** -/
theorem startLoops_eq (h : Started graph degrees [] s) :
    ∃ s', ((List.range' 1 (graph.length - 1)).foldlM (fun s j => start .mouseWin s 0 j) s >>=
        fun s => (List.range' 1 (graph.length - 1)).foldlM (fun s i => start .catWin s i i) s) =
      pure s' ∧ Started graph degrees (wonPairs graph.length) s' := by
  obtain ⟨s', hloop, h'⟩ := foldlM_eq (l := List.range' 1 (graph.length - 1))
    (f := fun s j => start .mouseWin s 0 j)
    (fun js => Started graph degrees (js.map fun j => (0, j))) h
    (fun js j s hpre h => by
      have hj := mem_range'.mp (mem_of_snoc hpre)
      rw [List.map_append]
      exact start_eq (Nat.zero_lt_of_lt hj.2) hj (fun _ => won_zero) h)
  obtain ⟨s'', hloop', h''⟩ := foldlM_eq (l := List.range' 1 (graph.length - 1))
    (f := fun s i => start .catWin s i i)
    (fun is => Started graph degrees
      ((List.range' 1 (graph.length - 1)).map (fun j => (0, j)) ++ is.map fun i => (i, i)))
    (by rwa [List.map_nil, List.append_nil])
    (fun is i s hpre h => by
      have hi := mem_range'.mp (mem_of_snoc hpre)
      rw [List.map_append, ← List.append_assoc]
      exact start_eq hi.2 hi (fun _ => won_self (Nat.one_le_iff_ne_zero.mp hi.1)) h)
  exact ⟨s'', by rw [hloop, pure_bind, hloop'], h''⟩

section Queue

variable (h : Started graph degrees (wonPairs graph.length) s)
include h

theorem Started.mem_qu (hp : p ∈ positions graph) : p ∈ s.qu ↔ (game graph).won p ≠ none := by
  rw [h.qu_eq, mem_bothTurns, mem_wonPairs hp]

theorem Started.mem_positions (hp : p ∈ s.qu) : p ∈ positions graph := by
  rw [h.qu_eq, mem_bothTurns, wonPairs, List.mem_append, List.mem_map, List.mem_map] at hp
  rcases hp with ⟨j, hj, heq⟩ | ⟨i, hi, heq⟩
  · obtain ⟨hm, hc⟩ := Prod.mk.inj heq
    have hj := mem_range'.mp hj
    exact ⟨hm ▸ Nat.zero_lt_of_lt hj.2, hc ▸ hj⟩
  · obtain ⟨hm, hc⟩ := Prod.mk.inj heq
    have hi := mem_range'.mp hi
    exact ⟨hm ▸ hi.2, hc ▸ hi⟩

theorem Started.nodup_qu : s.qu.Nodup := by
  rw [h.qu_eq]
  refine List.nodup_flatMap.mpr ⟨fun x _ => by simp [bothTurns], ?_⟩
  refine (nodup_wonPairs _).imp fun {x y} hne p hx hy => hne ?_
  have hpx := mem_bothTurns.mp (List.mem_flatMap.mpr ⟨x, List.mem_singleton.mpr rfl, hx⟩)
  have hpy := mem_bothTurns.mp (List.mem_flatMap.mpr ⟨y, List.mem_singleton.mpr rfl, hy⟩)
  exact (List.mem_singleton.mp hpx).symm.trans (List.mem_singleton.mp hpy)

theorem Started.winners_eq_won (hp : p ∈ positions graph) :
    winners s p = (game graph).won p := by
  rw [h.winners_eq p]
  split_ifs with hqu
  · rfl
  · exact (not_not.mp (mt (h.mem_qu hp).mpr hqu)).symm

/-- **The analysis starts** with the positions that are won. -/
theorem Started.state (hg : Simple graph)
    (hdegrees : Filled graph (lowered graph (neighbours graph 0)) (fun _ => True) degrees) :
    State graph [] [] s where
  degrees_size := h.degrees_eq ▸ hdegrees.1
  results_size := h.results_size
  inv := by
    refine .init (backwards hg) (fun p => h.winners_eq_won) ?_ ?_ ?_
    · intro b a
      rw [List.nil_append, mem_intoAll, ← and_assoc]
      refine and_congr_left fun _ => ?_
      constructor
      · exact fun ha => ⟨h.mem_positions ha, (h.mem_qu (h.mem_positions ha)).mp ha⟩
      · exact fun ⟨ha, hwon⟩ => (h.mem_qu ha).mpr hwon
    · exact nodup_intoAll h.nodup_qu fun a ha => (backwards hg).nodup a (h.mem_positions ha)
    · intro b hb hnone
      rw [h.degrees_eq, hdegrees.2 b hb trivial, lowered_eq_card hg]
      exact ⟨rfl, moves_nonempty hg hb hnone⟩
  nodup := h.nodup_qu
  decided := by
    intro p hp
    have hpos := h.mem_positions hp
    refine ⟨hpos, fun hdraw => (h.mem_qu hpos).mp hp ?_⟩
    rw [← h.winners_eq_won hpos]
    exact winner_eq_none.mpr hdraw

end Queue

/-! ### The result -/

/-- **`catMouseGame` ends**, and finds for every position who can force a win: the mouse, the cat or
nobody. -/
theorem catMouseGame_iff (hg : Simple graph) :
    ∃ s, solve graph = pure s ∧ catMouseGame graph = pure (s.results.data (1, 2, .mouse)) ∧
      ∀ m < graph.length, ∀ c < graph.length, 1 ≤ c → ∀ t,
        (s.results.data (m, c, t) = .mouseWin ↔ ∃ k, (game graph).Forces .mouse k (m, c, t)) ∧
        (s.results.data (m, c, t) = .catWin ↔ ∃ k, (game graph).Forces .cat k (m, c, t)) ∧
        (s.results.data (m, c, t) = .draw ↔ ∀ u k, ¬(game graph).Forces u k (m, c, t)) := by
  have hsize : ({ data := fun _ => 0, size := graph.length } : Table ℤ).size = graph.length := rfl
  obtain ⟨degrees, hset, hfilled⟩ := setDegrees_eq hsize
  obtain ⟨degrees', hlower, hfilled'⟩ := lowerDegrees_eq hg hfilled
  have hempty : Started graph degrees' [] { degrees := degrees', results :=
      { data := fun _ => .draw, size := graph.length }, qu := [] } :=
    ⟨rfl, rfl, rfl, fun p => (if_neg List.not_mem_nil).symm⟩
  obtain ⟨s, hstart, hstarted⟩ := startLoops_eq hempty
  obtain ⟨s', popped, hloop, hstate, hqu⟩ := (hstarted.state hg hfilled').queueLoop hg
  have hsolve : solve graph = pure s' := by
    rw [solve, hset, pure_bind, hlower, pure_bind]
    dsimp only
    rw [← bind_assoc, hstart, pure_bind, hloop]
  have hfirst : (1, 2, Turn.mouse) ∈ positions graph :=
    ⟨Nat.lt_of_succ_lt hg.three_le, one_le_two, hg.three_le⟩
  have hinv : Inv (game graph) (positions graph) (prevs graph) (winners s') s'.degrees.data [] := by
    have hinv := hstate.inv
    rwa [hqu] at hinv
  refine ⟨s', hsolve, ?_, fun m hm c hc hpos t => ?_⟩
  · rw [catMouseGame, hsolve, pure_bind, Table.get_eq hfirst hstate.results_size]
  · have hiff := fun u => hinv.result_iff (p := u) (backwards hg) (a := (m, c, t)) ⟨hm, hpos, hc⟩
    refine ⟨mouseWin_iff.trans (hiff .mouse), catWin_iff.trans (hiff .cat), ?_⟩
    rw [← winner_eq_none, Option.eq_none_iff_forall_ne_some]
    exact forall_congr' fun u => (not_congr (hiff u)).trans not_exists

/-- The mouse runs into its hole at once. -/
theorem catMouseGame_iff_triangle : catMouseGame [[1, 2], [0, 2], [0, 1]] = pure .mouseWin := by
  have hg : Simple [[1, 2], [0, 2], [0, 1]] := by
    constructor
    · decide
    · rintro (_ | _ | _ | i) <;> simp [neighbours]
    · rintro (_ | _ | _ | i) <;> simp [neighbours]
    · rintro (_ | _ | _ | i) <;> simp [neighbours]
    · rintro (_ | _ | _ | i) <;> simp [neighbours]
    · decide
    · decide
  obtain ⟨s, -, hgame, hall⟩ := catMouseGame_iff hg
  rw [hgame, (hall 1 (by decide) 2 (by decide) (by decide) .mouse).1.mpr ⟨1, ?_⟩]
  exact .of_move rfl (b := (0, 2, .cat)) (by decide) rfl

end CatMouseGame

end Candcpp
