import Candcpp.Cpp.Grid
import Candcpp.Cpp.Loop
import Candcpp.Cpp.Map
import Candcpp.Order.Layers

/-!
# Jumps to the last index

The two versions of `leetcode/bfs/1345.cpp`, which ask for the least number of jumps from the first
index of an array to the last, where one may jump to a neighbour and to any index with the same
value (`Candcpp.MinJumps.Adj`). `minJumps` writes the edges into a matrix, and has two flags for
each index. `minJumps_copilot` has one flag, and for each value a bucket of the indices with this
value, which it clears after its first use.

Both are searches by levels, which differ in how they expand an index: each puts those of its
neighbours in the queue that have not been seen (`Candcpp.MinJumps.expand_eq`,
`Candcpp.MinJumps.expandCopilot_eq`). A cleared bucket does no harm, as all its indices have been
seen (`Candcpp.MinJumps.Buckets.Rep`). So **both return the distance** of the last index
(`Candcpp.MinJumps.same_jumps`).

An index is not bounded, since an array has no more elements than an `int` counts.
-/

namespace Candcpp

open Cpp

namespace MinJumps

/-! ### The code -/

section Search

variable {τ : Type} (expand : ℤ → List ℤ × τ → Exec (List ℤ × τ))

/-- `for (int i = 0; i < size; ++i)`, of both versions: whether the last index has been at the front
of the queue, and what is left behind. -/
def levelLoop (n size i : ℤ) (s : List ℤ × τ) : Exec (Bool × List ℤ × τ) := do
  let +zeta levelLoop : type_of% levelLoop := by apply levelLoop
  if i < size then
    let idx ← nth s.1 0
    if idx = n - 1 then
      pure (true, s)
    else
      let s ← expand idx (s.1.tail, s.2)
      levelLoop n size (i + 1) s
  else
    pure (false, s)
partial_fixpoint

/-- `while (!q.empty())`, of both versions, which returns `distance`. -/
def searchLoop (n distance : ℤ) (s : List ℤ × τ) : Exec ℤ := do
  let +zeta searchLoop : type_of% searchLoop := by apply searchLoop
  if s.1 ≠ [] then
    let (finded, s) ← levelLoop expand n s.1.length 0 s
    if finded then
      pure distance
    else
      searchLoop n (distance + 1) s
  else
    pure distance
partial_fixpoint

end Search

/-- `for (int j = 0; j < n; ++j)`, which sets the edges to the indices with the same value. -/
def sameLoop (arr : List ℤ) (n i j : ℤ) (edge : Grid ℤ) : Exec (Grid ℤ) := do
  let +zeta sameLoop : type_of% sameLoop := by apply sameLoop
  if j < n then
    if i = j then
      sameLoop arr n i (j + 1) edge
    else
      let x ← nth arr i
      let y ← nth arr j
      if x = y then
        let edge ← edge.put i j 1
        sameLoop arr n i (j + 1) edge
      else
        sameLoop arr n i (j + 1) edge
  else
    pure edge
partial_fixpoint

/-- `if (ok) { edge[i][j] = 1; }`. -/
def setEdge (ok : Prop) [Decidable ok] (i j : ℤ) (edge : Grid ℤ) : Exec (Grid ℤ) :=
  if ok then edge.put i j 1 else pure edge

/-- `for (int i = 0; i < n; ++i)`, which sets the edges. -/
def edgeLoop (arr : List ℤ) (n i : ℤ) (edge : Grid ℤ) : Exec (Grid ℤ) := do
  let +zeta edgeLoop : type_of% edgeLoop := by apply edgeLoop
  if i < n then
    let edge ← setEdge (i - 1 ≥ 0) i (i - 1) edge
    let edge ← setEdge (i + 1 < n) i (i + 1) edge
    let edge ← sameLoop arr n i 0 edge
    edgeLoop arr n (i + 1) edge
  else
    pure edge
partial_fixpoint

/-- The two flags of each index. -/
structure Flags where
  visited : Arr Bool
  shortestOk : Arr Bool

/-- `!visited[j] && edge[node_idx][j] == 1 && !shortest_ok[j]`. -/
def fresh (edge : Grid ℤ) (nodeIdx j : ℤ) (f : Flags) : Exec Bool := do
  if ← f.visited.getInt j then
    pure false
  else if (← edge.get nodeIdx j) = 1 then
    let ok ← f.shortestOk.getInt j
    pure !ok
  else
    pure false

/-- `for (int j = 0; j < n; ++j)`, which puts the neighbours in the queue. -/
def pushLoop (edge : Grid ℤ) (n nodeIdx j : ℤ) (s : List ℤ × Flags) : Exec (List ℤ × Flags) := do
  let +zeta pushLoop : type_of% pushLoop := by apply pushLoop
  if j < n then
    if ← fresh edge nodeIdx j s.2 then
      let shortestOk ← s.2.shortestOk.putInt j true
      pushLoop edge n nodeIdx (j + 1) (s.1 ++ [j], { s.2 with shortestOk := shortestOk })
    else
      pushLoop edge n nodeIdx (j + 1) s
  else
    pure s
partial_fixpoint

/-- What `minJumps` does with an index that it has taken out of the queue. -/
def expand (edge : Grid ℤ) (n nodeIdx : ℤ) (s : List ℤ × Flags) : Exec (List ℤ × Flags) := do
  let visited ← s.2.visited.putInt nodeIdx true
  pushLoop edge n nodeIdx 0 (s.1, { s.2 with visited := visited })

/-- `minJumps`. -/
def minJumps (arr : List ℤ) : Exec ℤ := do
  let n : ℤ := arr.length
  let edge ← edgeLoop arr n 0 (Grid.fill arr.length arr.length 0)
  let flags : Flags :=
    { visited := Arr.fill arr.length false, shortestOk := Arr.fill arr.length false }
  searchLoop (expand edge n) n 0 ([0], flags)

/-- `for (int i = 0; i < n; ++i)`, which fills the buckets. -/
def positionLoop (arr : List ℤ) (n i : ℤ) (positions : Map ℤ (List ℤ)) :
    Exec (Map ℤ (List ℤ)) := do
  let +zeta positionLoop : type_of% positionLoop := by apply positionLoop
  if i < n then
    let x ← nth arr i
    positionLoop arr n (i + 1) (positions.insert x (positions.index x [] ++ [i]))
  else
    pure positions
partial_fixpoint

/-- The flag of each index, and the bucket of each value. -/
structure Buckets where
  visited : Arr Bool
  positions : Map ℤ (List ℤ)

/-- `if (!visited[next]) { visited[next] = true; q.push(next); }`. -/
def visit (s : List ℤ × Arr Bool) (next : ℤ) : Exec (List ℤ × Arr Bool) := do
  if ← s.2.getInt next then
    pure s
  else
    let visited ← s.2.putInt next true
    pure (s.1 ++ [next], visited)

/-- The same after a test of whether there is such an index. -/
def visitIf (ok : Prop) [Decidable ok] (next : ℤ) (s : List ℤ × Arr Bool) :
    Exec (List ℤ × Arr Bool) :=
  if ok then visit s next else pure s

/-- What `minJumps_copilot` does with an index that it has taken out of the queue. -/
def expandCopilot (arr : List ℤ) (n idx : ℤ) (s : List ℤ × Buckets) :
    Exec (List ℤ × Buckets) := do
  let left := idx - 1
  let p ← visitIf (left ≥ 0) left (s.1, s.2.visited)
  let right := idx + 1
  let p ← visitIf (right < n) right p
  let x ← nth arr idx
  let p ← (s.2.positions.index x []).foldlM visit p
  pure (p.1, { visited := p.2, positions := s.2.positions.insert x [] })

/-- `minJumps_copilot`. -/
def minJumpsCopilot (arr : List ℤ) : Exec ℤ := do
  let n : ℤ := arr.length
  if n ≤ 1 then
    pure 0
  else
    let positions ← positionLoop arr n 0 Map.empty
    let visited ← (Arr.fill arr.length false).putInt 0 true
    searchLoop (expandCopilot arr n) n 0 ([0], { visited := visited, positions := positions })

/-! ### The graph -/

/-- **The edges**: they join neighbouring indices, and indices with equal values. -/
def Adj (arr : List ℤ) (i j : ℤ) : Prop :=
  (0 ≤ i ∧ i < arr.length) ∧ (0 ≤ j ∧ j < arr.length) ∧ i ≠ j ∧
    (j = i - 1 ∨ j = i + 1 ∨ arr[i.toNat]? = arr[j.toNat]?)

variable {arr : List ℤ} {n i j k l : ℕ}

/-- The last index is reached by way of all the others. -/
theorem steps_index (hk : k < arr.length) : Steps (Adj arr) k 0 (k : ℤ) := by
  induction k with
  | zero => exact .done
  | succ k ih =>
    refine (ih (by omega)).snoc ⟨by omega, by omega, by omega, ?_⟩
    exact .inr (.inl (by push_cast; ring))

/-- A shortest path leads to the last index. -/
theorem exists_distance_last (hne : arr ≠ []) :
    ∃ D, Distance (Adj arr) 0 ((arr.length : ℤ) - 1) D := by
  have hpos : 0 < arr.length := List.length_pos_of_ne_nil hne
  have h : Steps (Adj arr) (arr.length - 1) 0 ((arr.length - 1 : ℕ) : ℤ) := steps_index (by omega)
  rw [Nat.cast_sub (by omega), Nat.cast_one] at h
  exact h.exists_distance

/-! ### The search -/

section Search

variable {τ : Type} {R : ℤ → ℤ → Prop} {Rep : τ → (ℤ → Prop) → Prop}
  {expand : ℤ → List ℤ × τ → Exec (List ℤ × τ)} {t : τ} {seen seen₀ : ℤ → Prop}
  {n size i s x : ℤ} {cur done next q : List ℤ} {d D : ℕ}

/-- **The data `t` of a search represent what has been seen**, and to expand an index that has been
seen is to put its neighbours in the queue that have not. -/
def Expands (R : ℤ → ℤ → Prop) (Rep : τ → (ℤ → Prop) → Prop)
    (expand : ℤ → List ℤ × τ → Exec (List ℤ × τ)) : Prop :=
  ∀ x q t seen, Rep t seen → seen x → ∃ new t' seen', expand x (q, t) = pure (q ++ new, t') ∧
    Rep t' seen' ∧ Pushed seen (R x) new seen'

/-- An index that is not the last one is expanded. -/
theorem levelLoop_turn (hexp : Expands R Rep expand) (hq : Level R s d (done ++ x :: cur) seen₀)
    (hi : i < size) (hx : x ≠ n - 1) (h : Expanded R s d done next seen) (ht : Rep t seen) :
    ∃ new t' seen', levelLoop expand n size i (x :: cur ++ next, t) =
        levelLoop expand n size (i + 1) (cur ++ (next ++ new), t') ∧
      Expanded R s d (done ++ [x]) (next ++ new) seen' ∧ Rep t' seen' := by
  have hseen : seen x := by
    have hmem : x ∈ done ++ x :: cur := List.mem_append_right done List.mem_cons_self
    exact (h.seen x).mpr (.inl ⟨d, le_rfl, ((hq.mem x).mp hmem).1⟩)
  obtain ⟨new, t', seen', hrun, ht', hp⟩ := hexp x (cur ++ next) t seen ht hseen
  refine ⟨new, t', seen', ?_, h.push hp, ht'⟩
  have hfront : nth (x :: cur ++ next) 0 = pure x := nth_eq (i := 0) rfl
  rw [levelLoop, if_pos hi]
  dsimp only
  rw [hfront, pure_bind, if_neg hx, List.cons_append, List.tail_cons, hrun, pure_bind,
    List.append_assoc]

/-- **A level without the last index** leaves behind the next level. -/
theorem levelLoop_eq (hexp : Expands R Rep expand) (hq : Level R s d q seen₀)
    (hsize : size = i + cur.length) (hcur : q = done ++ cur) (hn : n - 1 ∉ cur)
    (h : Expanded R s d done next seen) (ht : Rep t seen) :
    ∃ next' t' seen', levelLoop expand n size i (cur ++ next, t) = pure (false, next', t') ∧
      Expanded R s d q next' seen' ∧ Rep t' seen' := by
  induction cur generalizing done next t seen i with
  | nil =>
    rw [List.length_nil, Nat.cast_zero, add_zero] at hsize
    rw [List.append_nil] at hcur
    subst hcur
    exact ⟨next, t, seen, by rw [levelLoop, if_neg (by omega)]; rfl, h, ht⟩
  | cons x cur ih =>
    rw [List.length_cons, Nat.cast_succ] at hsize
    rw [List.mem_cons, not_or] at hn
    have hi : i < size := by omega
    obtain ⟨new, t', seen', hturn, h', ht'⟩ :=
      levelLoop_turn hexp (hcur ▸ hq) hi (Ne.symm hn.1) h ht
    have hcur' : q = (done ++ [x]) ++ cur := by rw [hcur, List.append_assoc]; rfl
    rw [hturn]
    exact ih (by rw [hsize]; ring) hcur' hn.2 h' ht'

/-- **In the level of the last index** it comes to the front. -/
theorem levelLoop_finds (hexp : Expands R Rep expand) (hq : Level R s d q seen₀)
    (hsize : size = i + cur.length) (hcur : q = done ++ cur) (hn : n - 1 ∈ cur)
    (h : Expanded R s d done next seen) (ht : Rep t seen) :
    ∃ r, levelLoop expand n size i (cur ++ next, t) = pure (true, r) := by
  induction cur generalizing done next t seen i with
  | nil => exact absurd hn List.not_mem_nil
  | cons x cur ih =>
    rw [List.length_cons, Nat.cast_succ] at hsize
    have hi : i < size := by omega
    by_cases hx : x = n - 1
    · have hfront : nth (x :: cur ++ next) 0 = pure x := nth_eq (i := 0) rfl
      refine ⟨(x :: cur ++ next, t), ?_⟩
      rw [levelLoop, if_pos hi]
      dsimp only
      rw [hfront, pure_bind, if_pos hx]
    · obtain ⟨new, t', seen', hturn, h', ht'⟩ :=
        levelLoop_turn hexp (hcur ▸ hq) hi hx h ht
      have hcur' : q = (done ++ [x]) ++ cur := by rw [hcur, List.append_assoc]; rfl
      rw [hturn]
      exact ih (by rw [hsize]; ring) hcur' ((List.mem_cons.mp hn).resolve_left (Ne.symm hx)) h' ht'

/-- **The search returns the distance** of the last index. -/
theorem searchLoop_eq (hexp : Expands R Rep expand) (hn : Distance R s (n - 1) D) (hd : d ≤ D)
    (hq : Level R s d q seen) (ht : Rep t seen) :
    searchLoop expand n d (q, t) = pure (D : ℤ) := by
  have hne : q ≠ [] := by
    obtain ⟨x, hx⟩ := hn.exists_before hd
    exact List.ne_nil_of_mem ((hq.mem x).mpr hx)
  obtain ⟨m, rfl⟩ := Nat.exists_eq_add_of_le hd
  induction m generalizing d q t seen with
  | zero =>
    have hsize : (q.length : ℤ) = 0 + q.length := (zero_add _).symm
    obtain ⟨r, hlevel⟩ := levelLoop_finds hexp hq hsize (List.nil_append q).symm
      ((hq.mem _).mpr hn) hq.expanded ht
    rw [List.append_nil] at hlevel
    rw [searchLoop, if_pos hne]
    dsimp only
    rw [hlevel, pure_bind]
    rfl
  | succ m ih =>
    have hfar : n - 1 ∉ q := by
      intro hmem
      have hle : d + (m + 1) ≤ d := hn.2 ((hq.mem _).mp hmem).1
      omega
    have hsize : (q.length : ℤ) = 0 + q.length := (zero_add _).symm
    obtain ⟨next, t', seen', hlevel, h', ht'⟩ :=
      levelLoop_eq hexp hq hsize (List.nil_append q).symm hfar hq.expanded ht
    rw [List.append_nil] at hlevel
    have hnext : Level R s (d + 1) next seen' := h'.level hq
    have hne' : next ≠ [] := by
      obtain ⟨x, hx⟩ := hn.exists_before (show d + 1 ≤ d + (m + 1) by omega)
      exact List.ne_nil_of_mem ((hnext.mem x).mpr hx)
    have hm : d + (m + 1) = d + 1 + m := by omega
    rw [searchLoop, if_pos hne]
    dsimp only
    rw [hlevel, pure_bind]
    dsimp only
    rw [hm] at hn ⊢
    rw [if_neg Bool.false_ne_true, ← Nat.cast_succ]
    exact ih hnext ht' hne' hn (Nat.le_add_right _ _)

end Search

/-! ### Flags -/

/-- The flag of the index `v` is set. -/
def Marked (a : Arr Bool) (v : ℤ) : Prop := 0 ≤ v ∧ v < a.size ∧ a.data v.toNat = true

variable {a : Arr Bool} {v : ℤ}

theorem not_marked_fill : ¬ Marked (Arr.fill n false) v := fun h => Bool.false_ne_true h.2.2

theorem getInt_flag (h0 : 0 ≤ v) (hv : v < a.size) :
    ∃ b, a.getInt v = pure b ∧ (b = true ↔ Marked a v) := by
  obtain ⟨m, rfl⟩ := Int.eq_ofNat_of_zero_le h0
  refine ⟨a.data m, Arr.getInt_eq (by omega), ?_⟩
  rw [Marked, Int.toNat_natCast]
  exact ⟨fun h => ⟨h0, hv, h⟩, fun h => h.2.2⟩

theorem putInt_flag (h0 : 0 ≤ v) (hv : v < a.size) :
    ∃ a', a.putInt v true = pure a' ∧ a'.size = a.size ∧
      ∀ w, Marked a' w ↔ Marked a w ∨ w = v := by
  obtain ⟨m, rfl⟩ := Int.eq_ofNat_of_zero_le h0
  refine ⟨_, Arr.putInt_eq (by omega) true, rfl, fun w => ?_⟩
  rw [Marked, Marked]
  dsimp only
  by_cases hw : w = (m : ℤ)
  · subst hw
    rw [Int.toNat_natCast, Function.update_self]
    exact iff_of_true ⟨h0, hv, rfl⟩ (.inr rfl)
  · rw [or_iff_left hw]
    refine and_congr_right fun hpos => ?_
    rw [Function.update_of_ne (by omega)]

/-! ### The matrix -/

/-- The edges of `edge'` are those of `edge`, and those of `P`. -/
structure Adds (edge : Grid ℤ) (P : ℕ → ℕ → Prop) (edge' : Grid ℤ) : Prop where
  rows : edge'.rows = edge.rows
  cols : edge'.cols = edge.cols
  data : ∀ k l, edge'.data k l = 1 ↔ edge.data k l = 1 ∨ P k l

namespace Adds

variable {edge edge' edge'' : Grid ℤ} {P Q : ℕ → ℕ → Prop}

theorem refl (edge : Grid ℤ) : Adds edge (fun _ _ => False) edge where
  rows := rfl
  cols := rfl
  data := fun _ _ => (or_iff_left not_false).symm

theorem set (edge : Grid ℤ) (i j : ℕ) : Adds edge (fun k l => k = i ∧ l = j) (edge.set i j 1) where
  rows := rfl
  cols := rfl
  data := fun k l => by
    rw [Grid.data_set]
    split_ifs with h
    · exact iff_of_true rfl (.inr h)
    · exact (or_iff_left h).symm

theorem trans (h : Adds edge P edge') (h' : Adds edge' Q edge'') :
    Adds edge (fun k l => P k l ∨ Q k l) edge'' where
  rows := h'.rows.trans h.rows
  cols := h'.cols.trans h.cols
  data := fun k l => by rw [h'.data, h.data, or_assoc]

theorem congr (h : Adds edge P edge') (hPQ : ∀ k l, Q k l ↔ P k l) : Adds edge Q edge' where
  rows := h.rows
  cols := h.cols
  data := fun k l => by rw [h.data, hPQ]

end Adds

variable {edge : Grid ℤ}

theorem sameLoop_eq (hi : i < n) (hn : n = arr.length) (hj : j ≤ n) (hrows : edge.rows = n)
    (hcols : edge.cols = n) : ∃ edge', sameLoop arr n i j edge = pure edge' ∧
      Adds edge (fun k l => k = i ∧ (j ≤ l ∧ l < n) ∧ i ≠ l ∧ arr[i]? = arr[l]?) edge' := by
  obtain ⟨m, rfl⟩ := Nat.exists_eq_add_of_le hj
  induction m generalizing j edge with
  | zero =>
    refine ⟨edge, by rw [sameLoop, if_neg (by omega)], (Adds.refl edge).congr fun k l => ?_⟩
    exact iff_of_false (by omega) not_false
  | succ m ih =>
    rw [sameLoop, if_pos (by omega), show ((j : ℤ) + 1) = ((j + 1 : ℕ) : ℤ) by push_cast; rfl,
      show j + (m + 1) = j + 1 + m by omega]
    rw [show j + (m + 1) = j + 1 + m by omega] at hi hn hrows hcols
    have hx : arr[i]? = some arr[i] := List.getElem?_eq_getElem (by omega)
    have hy : arr[j]? = some arr[j] := List.getElem?_eq_getElem (by omega)
    have hsame : arr[i]? = arr[j]? ↔ arr[i] = arr[j] := by rw [hx, hy, Option.some_inj]
    -- the entries from `j` on are that of `j` and those behind it
    have hfrom : ∀ l, (j ≤ l ∧ l < j + 1 + m) ↔ l = j ∨ (j + 1 ≤ l ∧ l < j + 1 + m) := by omega
    have hskip : ¬ (i ≠ j ∧ arr[i]? = arr[j]?) → ∀ k l,
        (k = i ∧ (j ≤ l ∧ l < j + 1 + m) ∧ i ≠ l ∧ arr[i]? = arr[l]?) ↔
          (k = i ∧ (j + 1 ≤ l ∧ l < j + 1 + m) ∧ i ≠ l ∧ arr[i]? = arr[l]?) := by
      intro hno k l
      rw [hfrom]
      refine and_congr_right fun _ => ⟨fun h => ⟨h.1.resolve_left ?_, h.2⟩, fun h =>
        ⟨.inr h.1, h.2⟩⟩
      rintro rfl
      exact hno h.2
    by_cases hij : i = j
    · obtain ⟨edge', hrun, h'⟩ := ih hi hn (by omega) hrows hcols
      refine ⟨edge', by rw [if_pos (by rw [hij]), hrun], h'.congr (hskip fun h => h.1 hij)⟩
    · rw [if_neg (by omega), nth_eq hx, pure_bind, nth_eq hy, pure_bind]
      by_cases hxy : arr[i] = arr[j]
      · have hset : edge.put i j 1 = pure (edge.set i j 1) := Grid.put_eq (by omega) (by omega) 1
        obtain ⟨edge', hrun, h'⟩ := ih hi hn (by omega)
          ((Grid.rows_set edge i j 1).trans hrows) ((Grid.cols_set edge i j 1).trans hcols)
        rw [if_pos hxy, hset, pure_bind]
        refine ⟨edge', hrun, ((Adds.set edge i j).trans h').congr fun k l => ?_⟩
        rw [hfrom, or_and_right, and_or_left]
        refine or_congr_left (and_congr_right fun _ => and_iff_left_of_imp ?_)
        rintro rfl
        exact ⟨hij, hsame.mpr hxy⟩
      · obtain ⟨edge', hrun, h'⟩ := ih hi hn (by omega) hrows hcols
        exact ⟨edge', by rw [if_neg hxy, hrun], h'.congr (hskip fun h => hxy (hsame.mp h.2))⟩

theorem setEdge_eq (ok : Prop) [Decidable ok] (j : ℤ) (hi : i < edge.rows)
    (hj : ok → 0 ≤ j ∧ j < edge.cols) : ∃ edge', setEdge ok i j edge = pure edge' ∧
      Adds edge (fun k l => k = i ∧ ok ∧ (l : ℤ) = j) edge' := by
  rw [setEdge]
  split_ifs with hok
  · obtain ⟨hpos, hlt⟩ := hj hok
    obtain ⟨m, rfl⟩ := Int.eq_ofNat_of_zero_le hpos
    refine ⟨_, Grid.put_eq hi (by omega) 1, (Adds.set edge i m).congr fun k l => ?_⟩
    rw [and_iff_right hok, Nat.cast_inj]
  · exact ⟨edge, rfl, (Adds.refl edge).congr fun k l => iff_of_false (fun h => hok h.2.1) not_false⟩

/-- **The loop sets the edges** of the rows that are left. -/
theorem edgeLoop_eq (hn : n = arr.length) (hi : i ≤ n) (hrows : edge.rows = n)
    (hcols : edge.cols = n) : ∃ edge', edgeLoop arr n i edge = pure edge' ∧
      Adds edge (fun k l => i ≤ k ∧ Adj arr k l) edge' := by
  obtain ⟨m, hm⟩ := Nat.exists_eq_add_of_le hi
  induction m generalizing i edge with
  | zero =>
    refine ⟨edge, by rw [edgeLoop, if_neg (by omega)], (Adds.refl edge).congr fun k l => ?_⟩
    refine iff_of_false (fun h => ?_) not_false
    have hk := h.2.1.2
    omega
  | succ m ih =>
    have hrow : i < edge.rows := by omega
    obtain ⟨edge₁, hrun₁, h₁⟩ := setEdge_eq ((i : ℤ) - 1 ≥ 0) ((i : ℤ) - 1) hrow (by omega)
    obtain ⟨edge₂, hrun₂, h₂⟩ := setEdge_eq ((i : ℤ) + 1 < n) ((i : ℤ) + 1) (h₁.rows ▸ hrow)
      (by rw [h₁.cols]; omega)
    obtain ⟨edge₃, hrun₃, h₃⟩ := sameLoop_eq (i := i) (j := 0) (by omega) hn (Nat.zero_le _)
      (h₂.rows.trans (h₁.rows.trans hrows)) (h₂.cols.trans (h₁.cols.trans hcols))
    have h := (h₁.trans h₂).trans h₃
    obtain ⟨edge', hrun, h'⟩ := ih (i := i + 1) (by omega) (h.rows.trans hrows)
      (h.cols.trans hcols) (by omega)
    refine ⟨edge', ?_, (h.trans h').congr fun k l => ?_⟩
    · rw [edgeLoop, if_pos (by omega), hrun₁, pure_bind, hrun₂, pure_bind]
      rw [show ((0 : ℤ)) = ((0 : ℕ) : ℤ) from rfl, hrun₃, pure_bind]
      exact_mod_cast hrun
    · -- the row `i`, and those behind it
      rw [show i ≤ k ↔ k = i ∨ i + 1 ≤ k by omega, or_and_right]
      refine or_congr_left ?_
      rw [Adj, Int.toNat_natCast, Int.toNat_natCast]
      by_cases hk : k = i
      · subst hk
        simp only [true_and]
        constructor
        · rintro ⟨-, hl, hne, h | h | h⟩
          · exact .inl (.inl ⟨by omega, h⟩)
          · exact .inl (.inr ⟨by omega, h⟩)
          · exact .inr ⟨by omega, by omega, h⟩
        · rintro ((⟨hpos, h⟩ | ⟨hlt, h⟩) | ⟨hl, hne, h⟩)
          · exact ⟨by omega, by omega, by omega, .inl h⟩
          · exact ⟨by omega, by omega, by omega, .inr (.inl h)⟩
          · exact ⟨by omega, by omega, by omega, .inr (.inr h)⟩
      · simp only [hk, false_and, or_self]

/-! ### Two flags for each index -/

/-- The matrix has the edges of the graph. -/
structure Edges (arr : List ℤ) (edge : Grid ℤ) : Prop where
  rows : edge.rows = arr.length
  cols : edge.cols = arr.length
  data : ∀ k l : ℕ, edge.data k l = 1 ↔ Adj arr k l

/-- **What has been seen**: the first index, and those whose shortest path has been found. The ones
that have been visited are among them; and the first one has been visited, unless it is the only
one that has been seen. -/
structure Flags.Rep (arr : List ℤ) (f : Flags) (seen : ℤ → Prop) : Prop where
  visited_size : f.visited.size = arr.length
  shortestOk_size : f.shortestOk.size = arr.length
  mem : ∀ v, seen v ↔ v = 0 ∨ Marked f.shortestOk v
  sub : ∀ v, Marked f.visited v → seen v
  start : Marked f.visited 0 ∨ ∀ v, seen v → v = 0

variable {f : Flags} {x : ℤ} {q new : List ℤ} {seen : ℤ → Prop}

/-- **An index is fresh** if it is a neighbour and has neither of the flags. -/
theorem fresh_eq (he : Edges arr edge) (hv : f.visited.size = arr.length)
    (hs : f.shortestOk.size = arr.length) (hi : i < arr.length) (hj : j < arr.length) :
    ∃ b, fresh edge i j f = pure b ∧
      (b = true ↔ ¬ Marked f.visited j ∧ Adj arr i j ∧ ¬ Marked f.shortestOk j) := by
  obtain ⟨b, hb, hvisited⟩ := getInt_flag (a := f.visited) (Int.natCast_nonneg j) (by omega)
  obtain ⟨c, hc, hok⟩ := getInt_flag (a := f.shortestOk) (Int.natCast_nonneg j) (by omega)
  have hget : edge.get i j = pure (edge.data i j) :=
    Grid.get_eq (by rw [he.rows]; exact hi) (by rw [he.cols]; exact hj)
  rw [fresh, hb, pure_bind]
  cases b with
  | true => exact ⟨false, rfl, iff_of_false Bool.false_ne_true fun h => h.1 (hvisited.mp rfl)⟩
  | false =>
    have hnot : ¬ Marked f.visited j := fun h => Bool.false_ne_true (hvisited.mpr h)
    rw [if_neg Bool.false_ne_true, hget, pure_bind]
    by_cases hadj : edge.data i j = 1
    · rw [if_pos hadj, hc, pure_bind]
      refine ⟨!c, rfl, ?_⟩
      rw [Bool.not_eq_true', ← Bool.not_eq_true, hok, and_iff_right hnot,
        and_iff_right ((he.data i j).mp hadj)]
    · rw [if_neg hadj]
      exact ⟨false, rfl, iff_of_false Bool.false_ne_true fun h => hadj ((he.data i j).mpr h.2.1)⟩

/-- A neighbour `j` is one more candidate. -/
theorem adj_before_succ (h : Adj arr i j) :
    (Adj arr i v ∧ v < (j + 1 : ℕ)) ↔ (Adj arr i v ∧ v < j) ∨ v = j := by
  rw [show v < (j + 1 : ℕ) ↔ v < j ∨ v = j by omega, and_or_left]
  refine or_congr_right (and_iff_right_of_imp ?_)
  rintro rfl
  exact h

theorem adj_before_succ_of_not (h : ¬ Adj arr i j) :
    (Adj arr i v ∧ v < (j + 1 : ℕ)) ↔ Adj arr i v ∧ v < j := by
  refine and_congr_right fun hv => ?_
  rw [show v < (j + 1 : ℕ) ↔ v < j ∨ v = j by omega]
  refine or_iff_left ?_
  rintro rfl
  exact h hv

/-- **The loop puts the neighbours in the queue** that have not been seen. -/
theorem pushLoop_eq (he : Edges arr edge) (hn : n = arr.length) (hi : i < n) (hj : j ≤ n)
    (hv : f.visited.size = n) (hs : f.shortestOk.size = n) (hstart : Marked f.visited 0)
    (hseen : ∀ v, Marked f.visited v → seen v)
    (hp : Pushed seen (fun v => Adj arr i v ∧ v < j) new fun v => v = 0 ∨ Marked f.shortestOk v) :
    ∃ new' ok, pushLoop edge n i j (q ++ new, f) =
        pure (q ++ new', { visited := f.visited, shortestOk := ok }) ∧ ok.size = n ∧
      Pushed seen (Adj arr i) new' fun v => v = 0 ∨ Marked ok v := by
  obtain ⟨m, hm⟩ := Nat.exists_eq_add_of_le hj
  induction m generalizing j f new with
  | zero =>
    refine ⟨new, f.shortestOk, by rw [pushLoop, if_neg (by omega)], hs,
      hp.congr (fun v _ => ?_) fun _ => Iff.rfl⟩
    refine (and_iff_left_of_imp fun h => ?_).symm
    have hlt := h.2.1.2
    omega
  | succ m ih =>
    subst hn
    obtain ⟨b, hfresh, hb⟩ := fresh_eq he hv hs hi (j := j) (by omega)
    rw [pushLoop, if_pos (by omega)]
    dsimp only
    rw [hfresh, pure_bind, ← Nat.cast_succ]
    cases b with
    | true =>
      obtain ⟨hvisited, hadj, hok⟩ := hb.mp rfl
      have hunseen : ¬ ((j : ℤ) = 0 ∨ Marked f.shortestOk j) := by
        rintro (hzero | h)
        · exact hvisited (hzero ▸ hstart)
        · exact hok h
      obtain ⟨ok, hput, hsize, hok'⟩ :=
        putInt_flag (a := f.shortestOk) (Int.natCast_nonneg j) (by omega)
      rw [if_pos rfl, hput, pure_bind, List.append_assoc]
      have hp' : Pushed seen (fun v => Adj arr i v ∧ v < (j + 1 : ℕ)) (new ++ [(j : ℤ)])
          fun v => v = 0 ∨ Marked ok v := by
        refine (hp.push hunseen).congr (fun v _ => adj_before_succ hadj) fun v => ?_
        rw [hok', or_assoc]
      exact ih (f := { visited := f.visited, shortestOk := ok }) (by omega) hv
        (hsize.trans hs) hstart hseen hp' (by omega)
    | false =>
      rw [if_neg Bool.false_ne_true]
      refine ih (by omega) hv hs hstart hseen ?_ (by omega)
      by_cases hadj : Adj arr i j
      · have hmem : (j : ℤ) = 0 ∨ Marked f.shortestOk j := by
          by_contra hunseen
          rw [not_or] at hunseen
          refine Bool.false_ne_true (hb.mpr ⟨fun h => ?_, hadj, hunseen.2⟩)
          exact not_or.mpr hunseen (hp.seen_of_seen (hseen j h))
        exact (hp.skip hmem).congr (fun v _ => adj_before_succ hadj) fun _ => Iff.rfl
      · exact hp.congr (fun v _ => adj_before_succ_of_not hadj) fun _ => Iff.rfl

/-- **To expand an index** is to put its neighbours in the queue that have not been seen. -/
theorem expand_eq (hne : arr ≠ []) (he : Edges arr edge) :
    Expands (Adj arr) (Flags.Rep arr) (expand edge arr.length) := by
  intro x q f seen hf hx
  have hpos : 0 < arr.length := List.length_pos_of_ne_nil hne
  -- what has been seen is an index
  obtain ⟨i, rfl, hi⟩ : ∃ i : ℕ, x = i ∧ i < arr.length := by
    rcases (hf.mem x).mp hx with rfl | ⟨h0, hlt, -⟩
    · exact ⟨0, rfl, hpos⟩
    · rw [hf.shortestOk_size] at hlt
      exact ⟨x.toNat, by omega, by omega⟩
  obtain ⟨visited, hput, hsize, hvisited⟩ := putInt_flag (a := f.visited) (Int.natCast_nonneg i)
    (by rw [hf.visited_size]; omega)
  have hstart : Marked visited 0 := by
    rw [hvisited]
    rcases hf.start with h | h
    · exact .inl h
    · exact .inr (h _ hx).symm
  have hseen : ∀ v, Marked visited v → seen v := by
    intro v hv
    rcases (hvisited v).mp hv with h | rfl
    · exact hf.sub v h
    · exact hx
  have hp : Pushed seen (fun v => Adj arr i v ∧ v < (0 : ℕ)) []
      fun v => v = 0 ∨ Marked f.shortestOk v := by
    refine (Pushed.nil seen).congr (fun v _ => iff_of_false ?_ not_false) fun v => (hf.mem v).symm
    rintro ⟨hadj, hneg⟩
    have h0 := hadj.2.1.1
    omega
  obtain ⟨new, ok, hrun, hok, hp'⟩ := pushLoop_eq (q := q) (j := 0) he rfl hi (Nat.zero_le _)
    (f := { visited := visited, shortestOk := f.shortestOk }) (hsize.trans hf.visited_size)
    hf.shortestOk_size hstart hseen hp
  rw [List.append_nil] at hrun
  refine ⟨new, { visited := visited, shortestOk := ok }, _, ?_, ?_, hp'⟩
  · rw [expand]
    dsimp only
    rw [hput, pure_bind]
    exact hrun
  · exact {
      visited_size := hsize.trans hf.visited_size
      shortestOk_size := hok
      mem := fun _ => Iff.rfl
      sub := fun v hv => hp'.seen_of_seen (hseen v hv)
      start := .inl hstart }

/-- **The search with a matrix** returns the distance of the last index. -/
theorem minJumps_eq (hne : arr ≠ []) {D : ℕ} (hD : Distance (Adj arr) 0 ((arr.length : ℤ) - 1) D) :
    minJumps arr = pure (D : ℤ) := by
  obtain ⟨edge, hedge, h⟩ := edgeLoop_eq (i := 0) (rfl : arr.length = arr.length) (Nat.zero_le _)
    (Grid.rows_fill arr.length arr.length 0) (Grid.cols_fill arr.length arr.length 0)
  rw [Nat.cast_zero] at hedge
  have he : Edges arr edge := by
    refine ⟨h.rows, h.cols, fun k l => ?_⟩
    rw [h.data]
    exact (or_iff_right zero_ne_one).trans (and_iff_right (Nat.zero_le k))
  rw [minJumps]
  dsimp only
  rw [hedge, pure_bind]
  refine searchLoop_eq (d := 0) (expand_eq hne he) hD (Nat.zero_le D) level_zero ?_
  exact {
    visited_size := rfl
    shortestOk_size := rfl
    mem := fun v => (or_iff_left not_marked_fill).symm
    sub := fun v hv => absurd hv not_marked_fill
    start := .inr fun _ hv => hv }

/-! ### One flag for each index, and buckets -/

/-- The index `v` has the value `a`. -/
def HasValue (arr : List ℤ) (a v : ℤ) : Prop := 0 ≤ v ∧ arr[v.toNat]? = some a

theorem HasValue.lt {a : ℤ} (h : HasValue arr a v) : v < arr.length := by
  obtain ⟨hlt, -⟩ := List.getElem?_eq_some_iff.mp h.2
  have h0 := h.1
  omega

/-- **The loop puts each index in the bucket** of its value. -/
theorem positionLoop_eq {m : Map ℤ (List ℤ)} (hn : n = arr.length) (hi : i ≤ n)
    (h : ∀ a v, v ∈ m.index a [] ↔ HasValue arr a v ∧ v < i) :
    ∃ m', positionLoop arr n i m = pure m' ∧ ∀ a v, v ∈ m'.index a [] ↔ HasValue arr a v := by
  obtain ⟨k, hk⟩ := Nat.exists_eq_add_of_le hi
  induction k generalizing i m with
  | zero =>
    refine ⟨m, by rw [positionLoop, if_neg (by omega)], fun a v => ?_⟩
    rw [h]
    refine and_iff_left_of_imp fun hv => ?_
    have hlt := hv.lt
    omega
  | succ k ih =>
    have hx : arr[i]? = some arr[i] := List.getElem?_eq_getElem (by omega)
    rw [positionLoop, if_pos (by omega), nth_eq hx, pure_bind, ← Nat.cast_succ]
    refine ih (by omega) (fun a v => ?_) (by omega)
    have hupto : v < (i + 1 : ℕ) ↔ v < i ∨ v = i := by omega
    rw [hupto, and_or_left, ← h]
    by_cases ha : a = arr[i]
    · subst ha
      rw [Map.index_insert_self, List.mem_append, List.mem_singleton]
      refine or_congr_right (and_iff_right_of_imp ?_).symm
      rintro rfl
      exact ⟨Int.natCast_nonneg i, by rw [Int.toNat_natCast, hx]⟩
    · rw [Map.index_insert_of_ne _ _ _ ha]
      refine (or_iff_left ?_).symm
      rintro ⟨⟨-, hv⟩, rfl⟩
      rw [Int.toNat_natCast, hx] at hv
      exact ha (Option.some.inj hv).symm

/-- **What has been seen** has the flag, and an index that is no longer in the bucket of its value
has been seen. -/
structure Buckets.Rep (arr : List ℤ) (b : Buckets) (seen : ℤ → Prop) : Prop where
  size : b.visited.size = arr.length
  mem : ∀ v, seen v ↔ Marked b.visited v
  sub : ∀ a, ∀ v ∈ b.positions.index a [], HasValue arr a v
  sup : ∀ a v, HasValue arr a v → v ∈ b.positions.index a [] ∨ seen v

/-- The candidates have been visited: those that had not been seen are behind `q` in the queue. -/
def Visited (n : ℕ) (seen : ℤ → Prop) (q : List ℤ) (cand : ℤ → Prop) (s : List ℤ × Arr Bool) :
    Prop := ∃ new, s.1 = q ++ new ∧ s.2.size = n ∧ Pushed seen cand new (Marked s.2)

variable {cand : ℤ → Prop} {s : List ℤ × Arr Bool} {c : ℤ}

theorem visit_eq (h : Visited n seen q cand s) (h0 : 0 ≤ c) (hc : c < n) :
    ∃ s', visit s c = pure s' ∧ Visited n seen q (fun v => cand v ∨ v = c) s' := by
  obtain ⟨new, hq, hsize, hp⟩ := h
  obtain ⟨b, hget, hb⟩ := getInt_flag (a := s.2) h0 (by omega)
  rw [visit, hget, pure_bind]
  cases b with
  | true => exact ⟨s, rfl, new, hq, hsize, hp.skip (hb.mp rfl)⟩
  | false =>
    have hunseen : ¬ Marked s.2 c := fun h => Bool.false_ne_true (hb.mpr h)
    obtain ⟨visited, hput, hsize', hvisited⟩ := putInt_flag (a := s.2) h0 (by omega)
    rw [if_neg Bool.false_ne_true, hput, pure_bind]
    refine ⟨_, rfl, new ++ [c], ?_, hsize'.trans hsize, ?_⟩
    · rw [hq, List.append_assoc]
    · exact (hp.push hunseen).congr (fun _ _ => Iff.rfl) hvisited

theorem visitIf_eq (ok : Prop) [Decidable ok] (h : Visited n seen q cand s)
    (hc : ok → 0 ≤ c ∧ c < n) : ∃ s', visitIf ok c s = pure s' ∧
      Visited n seen q (fun v => cand v ∨ ok ∧ v = c) s' := by
  rw [visitIf]
  split_ifs with hok
  · obtain ⟨s', hrun, new, hq, hsize, hp⟩ := visit_eq h (hc hok).1 (hc hok).2
    refine ⟨s', hrun, new, hq, hsize, hp.congr (fun v _ => ?_) fun _ => Iff.rfl⟩
    rw [and_iff_right hok]
  · obtain ⟨new, hq, hsize, hp⟩ := h
    refine ⟨s, rfl, new, hq, hsize, hp.congr (fun v _ => ?_) fun _ => Iff.rfl⟩
    exact or_iff_left fun h => hok h.1

theorem visitAll_eq {l : List ℤ} (h : Visited n seen q cand s) (hl : ∀ c ∈ l, 0 ≤ c ∧ c < n) :
    ∃ s', l.foldlM visit s = pure s' ∧ Visited n seen q (fun v => cand v ∨ v ∈ l) s' := by
  refine foldlM_eq (fun pre => Visited n seen q fun v => cand v ∨ v ∈ pre) ?_ ?_
  · simpa only [List.not_mem_nil, or_false] using h
  · intro pre c t hpre ht
    obtain ⟨hpos, hlt⟩ := hl c (hpre.subset (List.mem_append_right pre (List.mem_singleton_self c)))
    obtain ⟨t', hrun, ht'⟩ := visit_eq ht hpos hlt
    refine ⟨t', hrun, ?_⟩
    simpa only [List.mem_append, List.mem_singleton, or_assoc] using ht'

namespace Buckets.Rep

variable {b : Buckets} {a : ℤ}

/-- **A bucket may be cleared** when all its indices have been seen. -/
theorem clear {visited : Arr Bool} (hb : Rep arr b seen) (hsize : visited.size = arr.length)
    (hseen : ∀ v, seen v → Marked visited v)
    (hbucket : ∀ v ∈ b.positions.index a [], Marked visited v) :
    Rep arr { visited := visited, positions := b.positions.insert a [] } (Marked visited) where
  size := hsize
  mem := fun _ => Iff.rfl
  sub := fun c v hv => by
    by_cases hc : c = a
    · subst hc
      rw [Map.index_insert_self] at hv
      exact absurd hv List.not_mem_nil
    · rw [Map.index_insert_of_ne _ _ _ hc] at hv
      exact hb.sub c v hv
  sup := fun c v hv => by
    by_cases hc : c = a
    · subst hc
      exact .inr ((hb.sup c v hv).elim (hbucket v) (hseen v))
    · rw [Map.index_insert_of_ne _ _ _ hc]
      exact (hb.sup c v hv).imp_right (hseen v)

/-- **The neighbours that have not been seen** are next to the index or in the bucket of its
value. -/
theorem adj_iff (hb : Rep arr b seen) (ha : arr[i]? = some a) (hi : seen i) (hv : ¬ seen v) :
    Adj arr i v ↔ ((False ∨ (i : ℤ) - 1 ≥ 0 ∧ v = i - 1) ∨
      (i : ℤ) + 1 < arr.length ∧ v = i + 1) ∨ v ∈ b.positions.index a [] := by
  obtain ⟨hlt, -⟩ := List.getElem?_eq_some_iff.mp ha
  constructor
  · rintro ⟨-, hrange, -, h | h | h⟩
    · exact .inl (.inl (.inr ⟨by omega, h⟩))
    · exact .inl (.inr ⟨by omega, h⟩)
    · rw [Int.toNat_natCast, ha] at h
      exact .inr ((hb.sup a v ⟨hrange.1, h.symm⟩).resolve_right hv)
  · have hne : (i : ℤ) ≠ v := fun h => hv (h ▸ hi)
    rintro (((h | ⟨hleft, h⟩) | ⟨hright, h⟩) | h)
    · exact h.elim
    · exact ⟨by omega, by omega, hne, .inl h⟩
    · exact ⟨by omega, by omega, hne, .inr (.inl h)⟩
    · have hvalue := hb.sub a v h
      have hlt' := hvalue.lt
      refine ⟨by omega, ⟨hvalue.1, hlt'⟩, hne, .inr (.inr ?_)⟩
      rw [Int.toNat_natCast, ha, hvalue.2]

end Buckets.Rep

/-- **To expand an index** is to put its neighbours in the queue that have not been seen, also where
the bucket of its value has been cleared. -/
theorem expandCopilot_eq :
    Expands (Adj arr) (Buckets.Rep arr) (expandCopilot arr arr.length) := by
  intro x q b seen hb hx
  obtain ⟨h0, hlt, -⟩ := (hb.mem x).mp hx
  rw [hb.size] at hlt
  obtain ⟨i, rfl⟩ := Int.eq_ofNat_of_zero_le h0
  have hval : arr[i]? = some arr[i] := List.getElem?_eq_getElem (by omega)
  have hstart : Visited arr.length seen q (fun _ => False) (q, b.visited) :=
    ⟨[], (List.append_nil q).symm, hb.size,
      (Pushed.nil seen).congr (fun _ _ => Iff.rfl) fun v => (hb.mem v).symm⟩
  obtain ⟨p₁, hrun₁, h₁⟩ := visitIf_eq ((i : ℤ) - 1 ≥ 0) hstart (c := (i : ℤ) - 1) (by omega)
  obtain ⟨p₂, hrun₂, h₂⟩ := visitIf_eq ((i : ℤ) + 1 < arr.length) h₁ (c := (i : ℤ) + 1) (by omega)
  obtain ⟨p₃, hrun₃, new, hq, hsize, hp⟩ := visitAll_eq h₂ (l := b.positions.index arr[i] [])
    fun c hc => ⟨(hb.sub _ c hc).1, (hb.sub _ c hc).lt⟩
  refine ⟨new, { visited := p₃.2, positions := b.positions.insert arr[i] [] }, Marked p₃.2,
    ?_, ?_, hp.congr (fun v hv => hb.adj_iff hval hx hv) fun _ => Iff.rfl⟩
  · rw [expandCopilot]
    dsimp only
    rw [hrun₁, pure_bind, hrun₂, pure_bind, nth_eq hval, pure_bind, hrun₃, pure_bind, hq]
  · refine hb.clear hsize (fun v => hp.seen_of_seen) fun v hv => ?_
    exact hp.seen_of_cand (.inr hv)

/-- **The search with buckets** returns the distance of the last index. -/
theorem minJumpsCopilot_eq (hne : arr ≠ []) {D : ℕ}
    (hD : Distance (Adj arr) 0 ((arr.length : ℤ) - 1) D) : minJumpsCopilot arr = pure (D : ℤ) := by
  have hpos : 0 < arr.length := List.length_pos_of_ne_nil hne
  rw [minJumpsCopilot]
  by_cases hone : (arr.length : ℤ) ≤ 1
  · have hlast : (arr.length : ℤ) - 1 = 0 := by omega
    have hle : D ≤ 0 := hD.2 (hlast.symm ▸ Steps.done)
    rw [if_pos hone, Nat.le_zero.mp hle]
    rfl
  · obtain ⟨positions, hpositions, hmem⟩ := positionLoop_eq (i := 0) (m := Map.empty)
      (rfl : arr.length = arr.length) (Nat.zero_le _) (by
        intro a v
        refine iff_of_false List.not_mem_nil ?_
        rintro ⟨⟨h0, -⟩, hneg⟩
        omega)
    rw [Nat.cast_zero] at hpositions
    obtain ⟨visited, hput, hsize, hvisited⟩ :=
      putInt_flag (a := Arr.fill arr.length false) le_rfl (by exact_mod_cast hpos)
    rw [if_neg hone, hpositions, pure_bind, hput, pure_bind]
    refine searchLoop_eq (d := 0) expandCopilot_eq hD (Nat.zero_le D) level_zero ?_
    exact {
      size := hsize
      mem := fun v => ((hvisited v).trans (or_iff_right not_marked_fill)).symm
      sub := fun a v hv => (hmem a v).mp hv
      sup := fun a v hv => .inl ((hmem a v).mpr hv) }

end MinJumps

end Candcpp
