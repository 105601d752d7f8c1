import Candcpp.Algorithm.BinaryTree

/-!
# The lowest common ancestor

The class `Solution` of `236.cpp`, with three ways to find the deepest node of a tree that has two
given nodes in its subtree. `lowestCommonAncestor_my` looks for the paths to both with backtracking,
and takes the last node that they have in common. `lowestCommonAncestor_official1` visits every node
after its children, and writes the member `ans` at a node whose subtree has both where those of its
children do not. `lowestCommonAncestor` keeps a map from the values to the parents, marks the nodes
above the first one, and goes up from the second one to a node that is marked.

The values of the nodes are different. All three find the node at which the paths part:
`Candcpp.LowestCommonAncestor.lowestCommonAncestorMy_eq`,
`Candcpp.LowestCommonAncestor.official1_eq`, `Candcpp.LowestCommonAncestor.climbs_eq`. **They return
the deepest node that has both in its subtree**
(`Candcpp.LowestCommonAncestor.lowestCommonAncestor_eq`).

A path has at most as many nodes as an `int` counts.
-/

namespace Candcpp

open Cpp Shape

namespace LowestCommonAncestor

/-! ### The code -/

/-- `class Solution`. -/
structure Solution where
  ans : Ptr
  fa : Map ℤ Ptr
  vis : Map ℤ Bool

/-- `path.pop_back()`. -/
def popBack (path : List Ptr) : Exec (List Ptr) :=
  if path = [] then throw .outOfRange else pure path.dropLast

/-- `dfs_my(curr, target, path)`: what it returns, and the path. -/
def dfsMy (m : Mem TreeNode) (target curr : Ptr) (path : List Ptr) : Exec (Bool × List Ptr) := do
  let +zeta dfsMy : type_of% dfsMy := by apply dfsMy
  if curr = none then
    pure (false, path)
  else
    let path := path ++ [curr]
    if curr = target then
      pure (true, path)
    else
      let n ← m.read curr
      let r ← dfsMy m target n.left path
      if r.1 then
        pure (true, r.2)
      else
        let r ← dfsMy m target n.right r.2
        if r.1 then
          pure (true, r.2)
        else
          let path ← popBack r.2
          pure (false, path)
partial_fixpoint

/-- `while (i < len && path[i] == path2[i])`: the value of `i` at the end. -/
def prefixLoop (path path2 : List Ptr) (len i : ℕ) : Exec ℕ := do
  let +zeta prefixLoop : type_of% prefixLoop := by apply prefixLoop
  if i < len then
    let a ← nth path i
    let b ← nth path2 i
    if a = b then
      prefixLoop path path2 len (i + 1)
    else
      pure i
  else
    pure i
partial_fixpoint

/-- `lowestCommonAncestor_my(root, p, q)`. -/
def lowestCommonAncestorMy (m : Mem TreeNode) (root p q : Ptr) : Exec Ptr := do
  let path ← dfsMy m p root []
  let path2 ← dfsMy m q root []
  let i ← prefixLoop path.2 path2.2 (min path.2.length path2.2.length) 0
  nth path.2 ((i : ℤ) - 1)

/-- `root->val == p->val || root->val == q->val`. -/
def isOneOf (m : Mem TreeNode) (p q : Ptr) (n : TreeNode) : Exec Bool := do
  let a ← m.read p
  if n.val = a.val then
    pure true
  else
    let b ← m.read q
    pure (decide (n.val = b.val))

/-- The condition under which `dfs` writes the member `ans`. -/
def isAns (m : Mem TreeNode) (p q : Ptr) (n : TreeNode) (lson rson : Bool) : Exec Bool := do
  if lson ∧ rson then
    pure true
  else if ← isOneOf m p q n then
    pure (lson || rson)
  else
    pure false

/-- `dfs(root, p, q)`: what it returns, and the object. -/
def dfs (m : Mem TreeNode) (p q root : Ptr) (s : Solution) : Exec (Bool × Solution) := do
  let +zeta dfs : type_of% dfs := by apply dfs
  if root = none then
    pure (false, s)
  else
    let n ← m.read root
    let lson ← dfs m p q n.left s
    let rson ← dfs m p q n.right lson.2
    let here ← isAns m p q n lson.1 rson.1
    let s := if here then { rson.2 with ans := root } else rson.2
    if lson.1 ∨ rson.1 then
      pure (true, s)
    else
      let b ← isOneOf m p q n
      pure (b, s)
partial_fixpoint

/-- `lowestCommonAncestor_official1(root, p, q)`. -/
def lowestCommonAncestorOfficial1 (m : Mem TreeNode) (s : Solution) (root p q : Ptr) :
    Exec (Ptr × Solution) := do
  let r ← dfs m p q root s
  pure (r.2.ans, r.2)

/-- `node->val`. -/
def valueOf (m : Mem TreeNode) (node : Ptr) : Exec ℤ := do
  let n ← m.read node
  pure n.val

/-- `build_fa(root)`: the member `fa`. -/
def buildFa (m : Mem TreeNode) (root : Ptr) (fa : Map ℤ Ptr) : Exec (Map ℤ Ptr) :=
  fillParents m (valueOf m) root fa

/-- `while (p != nullptr)`, which marks the values. -/
def markLoop (m : Mem TreeNode) (s : Solution) (p : Ptr) : Exec Solution := do
  let +zeta markLoop : type_of% markLoop := by apply markLoop
  if p = none then
    pure s
  else
    let n ← m.read p
    let s := { s with vis := s.vis.insert n.val true }
    markLoop m { s with fa := s.fa.touch n.val none } (s.fa.index n.val none)
partial_fixpoint

/-- `while (q != nullptr)`, and what is returned. -/
def findLoop (m : Mem TreeNode) (s : Solution) (q : Ptr) : Exec (Ptr × Solution) := do
  let +zeta findLoop : type_of% findLoop := by apply findLoop
  if q = none then
    pure (none, s)
  else
    let n ← m.read q
    let marked := s.vis.index n.val false
    let s := { s with vis := s.vis.touch n.val false }
    if marked then
      pure (q, s)
    else
      findLoop m { s with fa := s.fa.touch n.val none } (s.fa.index n.val none)
partial_fixpoint

/-- `lowestCommonAncestor(root, p, q)`. -/
def lowestCommonAncestor (m : Mem TreeNode) (s : Solution) (root p q : Ptr) :
    Exec (Ptr × Solution) := do
  let n ← m.read root
  let fa ← buildFa m root (s.fa.insert n.val none)
  let s ← markLoop m { s with fa := fa } p
  findLoop m s q

/-! ### The paths -/

variable {m : Mem TreeNode} {root : Ptr} {t : Shape (Addr × ℤ)} {x y z d : Addr × ℤ}
  {w : List (Addr × ℤ)} {s : Solution}

/-- A node that is not in a subtree is not found there. -/
theorem dfsMy_of_not_mem (ht : Rooted m root t) (hx : ∀ e ∈ labels t, e.1 ≠ x.1)
    (path : List Ptr) : dfsMy m (some x.1) root path = pure (false, path) := by
  induction t generalizing root path with
  | nil =>
    have hnull : root = none := ht
    rw [dfsMy, if_pos hnull]
  | node e l r ihl ihr =>
    obtain ⟨rfl, n, hn, -, hleft, hright⟩ := rooted_node ht
    have hne : some e.1 ≠ some x.1 := mt Option.some.inj (hx e List.mem_cons_self)
    rw [dfsMy, if_neg (Option.some_ne_none _), if_neg hne, Mem.read_some hn, pure_bind,
      ihl hleft fun d hd => hx d (List.mem_cons_of_mem _ (List.mem_append_left _ hd)), pure_bind,
      if_neg Bool.false_ne_true,
      ihr hright fun d hd => hx d (List.mem_cons_of_mem _ (List.mem_append_right _ hd)), pure_bind,
      if_neg Bool.false_ne_true, popBack, if_neg (by simp), pure_bind, List.dropLast_concat]

/-- **`dfs_my` finds the path** to a node. -/
theorem dfsMy_eq (ht : Rooted m root t) (hnd : ((labels t).map addressOf).Nodup)
    (hw : PathTo t w x) (path : List Ptr) :
    dfsMy m (some x.1) root path = pure (true, path ++ w.map addressOf) := by
  induction hw generalizing root path with
  | root =>
    obtain ⟨rfl, -⟩ := ht
    rw [dfsMy, if_neg (Option.some_ne_none _), if_pos rfl]
    rfl
  | @left e y l r w hw ih =>
    obtain ⟨rfl, n, hn, -, hleft, -⟩ := rooted_node ht
    rw [labels, List.map_cons, List.nodup_cons, List.map_append, List.nodup_append] at hnd
    have hne : some e.1 ≠ some y.1 := fun heq => hnd.1 (List.mem_append_left _
      (List.mem_map.mpr ⟨y, hw.end_mem, heq.symm⟩))
    rw [dfsMy, if_neg (Option.some_ne_none _), if_neg hne, Mem.read_some hn, pure_bind,
      ih hleft hnd.2.1, pure_bind, if_pos rfl, List.append_assoc]
    rfl
  | @right e y l r w hw ih =>
    obtain ⟨rfl, n, hn, -, hleft, hright⟩ := rooted_node ht
    rw [labels, List.map_cons, List.nodup_cons, List.map_append, List.nodup_append] at hnd
    have hne : some e.1 ≠ some y.1 := fun heq => hnd.1 (List.mem_append_right _
      (List.mem_map.mpr ⟨y, hw.end_mem, heq.symm⟩))
    have hleft' : ∀ d ∈ labels l, d.1 ≠ y.1 := fun d hd heq =>
      hnd.2.2.2 _ (List.mem_map_of_mem hd) _ (List.mem_map_of_mem hw.end_mem) (congrArg some heq)
    rw [dfsMy, if_neg (Option.some_ne_none _), if_neg hne, Mem.read_some hn, pure_bind,
      dfsMy_of_not_mem hleft hleft', pure_bind, if_neg Bool.false_ne_true, ih hright hnd.2.2.1,
      pure_bind, if_pos rfl, List.append_assoc]
    rfl

/-- **The loop** stops behind the common beginning of two lists. -/
theorem prefixLoop_eq {a b u : List Ptr} (h : Apart a b) {i k : ℕ} (hk : i + k = u.length) :
    prefixLoop (u ++ a) (u ++ b) (min (u ++ a).length (u ++ b).length) i = pure u.length := by
  induction k generalizing i with
  | zero =>
    obtain rfl : i = u.length := hk
    rw [prefixLoop]
    cases a with
    | nil => rw [if_neg (by simp)]
    | cons x a =>
      cases b with
      | nil => rw [if_neg (by simp)]
      | cons y b =>
        have hxy : x ≠ y := fun heq => h x rfl (congrArg some heq.symm)
        have ha : (u ++ x :: a)[u.length]? = some x := by simp
        have hb : (u ++ y :: b)[u.length]? = some y := by simp
        rw [if_pos (by simp), nth_eq ha, pure_bind, nth_eq hb, pure_bind, if_neg hxy]
  | succ k ih =>
    have hi : i < u.length := by omega
    obtain ⟨x, hx⟩ : ∃ x, u[i]? = some x := ⟨_, List.getElem?_eq_getElem hi⟩
    have ha : (u ++ a)[i]? = some x := by rw [List.getElem?_append_left hi, hx]
    have hb : (u ++ b)[i]? = some x := by rw [List.getElem?_append_left hi, hx]
    rw [prefixLoop, if_pos (by rw [List.length_append, List.length_append]; omega), nth_eq ha,
      pure_bind, nth_eq hb, pure_bind, if_pos rfl, ih (by omega)]

/-- The pointers of two paths part where the paths do. -/
theorem apart_map {a b : List (Addr × ℤ)} (ht : Rooted m root t) (ha : ∀ e ∈ a, e ∈ labels t)
    (hb : ∀ e ∈ b, e ∈ labels t) (h : Apart a b) : Apart (a.map addressOf) (b.map addressOf) := by
  intro p hp hp'
  rw [List.head?_map] at hp hp'
  obtain ⟨e, he, rfl⟩ := Option.mem_map.mp hp
  obtain ⟨d, hd, heq⟩ := Option.mem_map.mp hp'
  obtain rfl := ht.label_eq (hb d (List.mem_of_mem_head? hd)) (ha e (List.mem_of_mem_head? he))
    (Option.some.inj heq)
  exact h d he hd

/-- **`lowestCommonAncestor_my`** finds the node at which the paths part. -/
theorem lowestCommonAncestorMy_eq (ht : Rooted m root t) (hnd : (labels t).Nodup)
    (h : Fork t x y z) :
    lowestCommonAncestorMy m root (some x.1) (some y.1) = pure (some z.1) := by
  obtain ⟨c, a, b, hx, hy, hapart⟩ := h
  have hnd' := ht.nodup_addresses hnd
  have happ := apart_map ht
    (fun e he => hx.mem_labels e (List.mem_append_right _ (List.mem_cons_of_mem _ he)))
    (fun e he => hy.mem_labels e (List.mem_append_right _ (List.mem_cons_of_mem _ he))) hapart
  have hsplit : ∀ w : List (Addr × ℤ), (c ++ z :: w).map addressOf =
      (c.map addressOf ++ [addressOf z]) ++ w.map addressOf := fun w => by
    rw [List.map_append, List.map_cons, List.append_assoc, List.singleton_append]
  have hnth : (c.map addressOf ++ [addressOf z] ++ a.map addressOf)[c.length]? =
      some (some z.1) := by
    simp [addressOf]
  rw [lowestCommonAncestorMy, dfsMy_eq ht hnd' hx, pure_bind, dfsMy_eq ht hnd' hy, pure_bind,
    List.nil_append, List.nil_append, hsplit, hsplit, prefixLoop_eq happ (Nat.zero_add _),
    pure_bind, List.length_append, List.length_map, List.length_singleton, Nat.cast_succ,
    add_sub_cancel_right]
  exact nth_eq hnth

/-! ### The recursion that writes `ans` -/

variable {e : Addr × ℤ} {l r : Shape (Addr × ℤ)} {n : TreeNode}

/-- The paths to two nodes part at the root, if they are not in one subtree. -/
theorem fork_root (hx : x ∈ labels (.node e l r)) (hy : y ∈ labels (.node e l r))
    (hnd : (labels (.node e l r)).Nodup) (hl : ¬ (x ∈ labels l ∧ y ∈ labels l))
    (hr : ¬ (x ∈ labels r ∧ y ∈ labels r)) : Fork (.node e l r) x y e := by
  have hpath : ∀ v ∈ labels (.node e l r), ∃ a, PathTo (.node e l r) (e :: a) v ∧
      (a = [] ∨ PathTo l a v ∨ PathTo r a v) := by
    intro v hv
    obtain ⟨p, hp⟩ := exists_pathTo hv
    rcases pathTo_node.mp hp with ⟨rfl, -⟩ | ⟨a, rfl, ha⟩
    · exact ⟨[], hp, .inl rfl⟩
    · exact ⟨a, hp, .inr ha⟩
  obtain ⟨-, -, -, hdis⟩ := nodup_node hnd
  obtain ⟨a, ha, hxa⟩ := hpath x hx
  obtain ⟨b, hb, hyb⟩ := hpath y hy
  refine ⟨[], a, b, ha, hb, fun v hv hv' => ?_⟩
  have hva := List.mem_of_mem_head? hv
  have hvb := List.mem_of_mem_head? hv'
  rcases hxa with rfl | hxa | hxa
  · cases hva
  · rcases hyb with rfl | hyb | hyb
    · cases hvb
    · exact hl ⟨hxa.end_mem, hyb.end_mem⟩
    · exact hdis v (hxa.mem_labels v hva) (hyb.mem_labels v hvb)
  · rcases hyb with rfl | hyb | hyb
    · cases hvb
    · exact hdis v (hyb.mem_labels v hvb) (hxa.mem_labels v hva)
    · exact hr ⟨hxa.end_mem, hyb.end_mem⟩

/-- The value of a node is that of one of the two. -/
theorem isOneOf_eq (hx : ∃ a : TreeNode, m x.1 = some a ∧ a.val = x.2)
    (hy : ∃ b : TreeNode, m y.1 = some b ∧ b.val = y.2) :
    isOneOf m (some x.1) (some y.1) n = pure (decide (n.val = x.2 ∨ n.val = y.2)) := by
  obtain ⟨a, ha, hav⟩ := hx
  obtain ⟨b, hb, hbv⟩ := hy
  rw [isOneOf, Mem.read_some ha, pure_bind, hav]
  split_ifs with h
  · rw [decide_eq_true (.inl h)]
  · rw [Mem.read_some hb, pure_bind, hbv]
    simp only [h, false_or]

/-- The member `ans` is written where both have been found, and not in one subtree. -/
theorem isAns_eq {lson rson : Bool} (hx : ∃ a : TreeNode, m x.1 = some a ∧ a.val = x.2)
    (hy : ∃ b : TreeNode, m y.1 = some b ∧ b.val = y.2) :
    isAns m (some x.1) (some y.1) n lson rson = pure (decide ((lson ∧ rson) ∨
      (n.val = x.2 ∨ n.val = y.2) ∧ (lson ∨ rson))) := by
  rw [isAns, isOneOf_eq hx hy, pure_bind]
  by_cases h : n.val = x.2 ∨ n.val = y.2
  · cases lson <;> cases rson <;> simp [h]
  · cases lson <;> cases rson <;> simp [h]

/-- One call of `dfs`, after those for the children. -/
theorem dfs_node {a : Addr} {b₁ b₂ : Bool} {s₁ s₂ : Solution} (hn : m a = some n)
    (hx : ∃ a : TreeNode, m x.1 = some a ∧ a.val = x.2)
    (hy : ∃ b : TreeNode, m y.1 = some b ∧ b.val = y.2)
    (hl : dfs m (some x.1) (some y.1) n.left s = pure (b₁, s₁))
    (hr : dfs m (some x.1) (some y.1) n.right s₁ = pure (b₂, s₂)) :
    dfs m (some x.1) (some y.1) (some a) s =
      pure (decide ((b₁ ∨ b₂) ∨ n.val = x.2 ∨ n.val = y.2),
        if (b₁ ∧ b₂) ∨ (n.val = x.2 ∨ n.val = y.2) ∧ (b₁ ∨ b₂) then
          { s₂ with ans := some a }
        else
          s₂) := by
  rw [dfs, if_neg (Option.some_ne_none _), Mem.read_some hn, pure_bind, hl, pure_bind, hr,
    pure_bind, isAns_eq hx hy, pure_bind, isOneOf_eq hx hy]
  simp only [decide_eq_true_eq, pure_bind]
  by_cases h : b₁ ∨ b₂
  · have hfound : decide ((b₁ ∨ b₂) ∨ n.val = x.2 ∨ n.val = y.2) = true := decide_eq_true (.inl h)
    rw [if_pos h, hfound]
  · rw [if_neg h]
    simp only [h, false_or]

/-- The other nodes of a tree have other values than `x`. -/
def Differ (t : Shape (Addr × ℤ)) (x : Addr × ℤ) : Prop := ∀ e ∈ labels t, e.2 = x.2 → e = x

/-- **`dfs`** returns whether it has come to one of the nodes. If the subtree has both it leaves
behind in `ans` the node at which the paths part, and otherwise nothing changes. -/
theorem dfs_eq (ht : Rooted m root t) (hnd : (labels t).Nodup) (hxy : x ≠ y)
    (hx : ∃ a : TreeNode, m x.1 = some a ∧ a.val = x.2)
    (hy : ∃ b : TreeNode, m y.1 = some b ∧ b.val = y.2) (hdx : Differ t x) (hdy : Differ t y)
    (s : Solution) : ∃ b s', dfs m (some x.1) (some y.1) root s = pure (b, s') ∧
      (b = true ↔ x ∈ labels t ∨ y ∈ labels t) ∧
      (x ∈ labels t ∧ y ∈ labels t → ∃ z, Fork t x y z ∧ s' = { s with ans := some z.1 }) ∧
      (¬ (x ∈ labels t ∧ y ∈ labels t) → s' = s) := by
  induction t generalizing root s with
  | nil =>
    have hnull : root = none := ht
    rw [dfs, if_pos hnull]
    exact ⟨false, s, rfl, by simp [labels], nofun, fun _ => rfl⟩
  | node e l r ihl ihr =>
    obtain ⟨rfl, n, hn, hnv, hleft, hright⟩ := rooted_node ht
    obtain ⟨⟨hel, her⟩, hndl, hndr, hdis⟩ := nodup_node hnd
    obtain ⟨b₁, s₁, hrun₁, hb₁, hboth₁, hnot₁⟩ := ihl hleft hndl
      (fun d hd => hdx d (List.mem_cons_of_mem _ (List.mem_append_left _ hd)))
      (fun d hd => hdy d (List.mem_cons_of_mem _ (List.mem_append_left _ hd))) s
    obtain ⟨b₂, s₂, hrun₂, hb₂, hboth₂, hnot₂⟩ := ihr hright hndr
      (fun d hd => hdx d (List.mem_cons_of_mem _ (List.mem_append_right _ hd)))
      (fun d hd => hdy d (List.mem_cons_of_mem _ (List.mem_append_right _ hd))) s₁
    have hex : n.val = x.2 ↔ x = e := ⟨fun h => (hdx e List.mem_cons_self (hnv ▸ h)).symm,
      fun h => by rw [hnv, h]⟩
    have hey : n.val = y.2 ↔ y = e := ⟨fun h => (hdy e List.mem_cons_self (hnv ▸ h)).symm,
      fun h => by rw [hnv, h]⟩
    have hmem : ∀ v, v ∈ labels (.node e l r) ↔ v = e ∨ v ∈ labels l ∨ v ∈ labels r := fun v => by
      rw [labels, List.mem_cons, List.mem_append]
    have hxe : x = e → x ∉ labels l ∧ x ∉ labels r := fun h => h ▸ ⟨hel, her⟩
    have hye : y = e → y ∉ labels l ∧ y ∉ labels r := fun h => h ▸ ⟨hel, her⟩
    have hne : ¬ (x = e ∧ y = e) := fun h => hxy (h.1.trans h.2.symm)
    have hdx' := hdis x
    have hdy' := hdis y
    -- the condition under which `ans` is written
    have hans : ((b₁ = true ∧ b₂ = true) ∨ (n.val = x.2 ∨ n.val = y.2) ∧ (b₁ = true ∨ b₂ = true)) ↔
        (x ∈ labels (.node e l r) ∧ y ∈ labels (.node e l r)) ∧
          ¬ (x ∈ labels l ∧ y ∈ labels l) ∧ ¬ (x ∈ labels r ∧ y ∈ labels r) := by
      rw [hex, hey, hb₁, hb₂, hmem, hmem]
      clear * - hxe hye hne hdx' hdy'
      grind
    rw [dfs_node hn hx hy hrun₁ hrun₂]
    refine ⟨_, _, rfl, ?_, fun hboth => ?_, fun hnot => ?_⟩
    · rw [decide_eq_true_iff, hex, hey, hb₁, hb₂, hmem, hmem]
      clear * -
      grind
    · by_cases hl : x ∈ labels l ∧ y ∈ labels l
      · obtain ⟨z, hfork, rfl⟩ := hboth₁ hl
        rw [if_neg (fun h => (hans.mp h).2.1 hl), hnot₂ fun h => hdx' hl.1 h.1]
        exact ⟨z, hfork.left, rfl⟩
      · obtain rfl := hnot₁ hl
        by_cases hr : x ∈ labels r ∧ y ∈ labels r
        · obtain ⟨z, hfork, rfl⟩ := hboth₂ hr
          rw [if_neg fun h => (hans.mp h).2.2 hr]
          exact ⟨z, hfork.right, rfl⟩
        · rw [if_pos (hans.mpr ⟨hboth, hl, hr⟩), hnot₂ hr]
          exact ⟨e, fork_root hboth.1 hboth.2 hnd hl hr, rfl⟩
    · rw [if_neg fun h => hnot (hans.mp h).1, hnot₂ fun h => hnot ?_, hnot₁ fun h => hnot ?_]
      · exact ⟨(hmem x).mpr (.inr (.inl h.1)), (hmem y).mpr (.inr (.inl h.2))⟩
      · exact ⟨(hmem x).mpr (.inr (.inr h.1)), (hmem y).mpr (.inr (.inr h.2))⟩

/-- **`lowestCommonAncestor_official1`** finds the node at which the paths part. -/
theorem official1_eq (ht : Rooted m root t) (hnd : ((labels t).map Prod.snd).Nodup)
    (hx : x ∈ labels t) (hy : y ∈ labels t) (hxy : x ≠ y) (s : Solution) :
    ∃ z, Fork t x y z ∧ lowestCommonAncestorOfficial1 m s root (some x.1) (some y.1) =
      pure (some z.1, { s with ans := some z.1 }) := by
  have hdiffer : ∀ v ∈ labels t, Differ t v := fun v hv e he heq =>
    List.inj_on_of_nodup_map hnd he hv heq
  obtain ⟨b, s', hrun, -, hboth, -⟩ := dfs_eq ht (List.Nodup.of_map _ hnd) hxy (ht.exists_node hx)
    (ht.exists_node hy) (hdiffer x hx) (hdiffer y hy) s
  obtain ⟨z, hfork, rfl⟩ := hboth ⟨hx, hy⟩
  rw [lowestCommonAncestorOfficial1, hrun, pure_bind]
  exact ⟨z, hfork, rfl⟩

/-! ### The parents and the marks -/

/-- **`build_fa`** makes the map that leads upwards, where the root has been entered before. -/
theorem buildFa_eq (ht : Rooted m root (.node e l r))
    (hnd : ((labels (.node e l r)).map Prod.snd).Nodup) (fa : Map ℤ Ptr) :
    ∃ fa', buildFa m root (fa.insert e.2 none) = pure fa' ∧
      Hung Prod.snd fa' none (.node e l r) := by
  have hkey : ∀ d ∈ labels (.node e l r), valueOf m (some d.1) = pure d.2 := by
    intro d hd
    obtain ⟨n, hn, hnv⟩ := ht.exists_node hd
    rw [valueOf, Mem.read_some hn, pure_bind]
    exact congrArg pure hnv
  obtain ⟨fa', hrun, hl, hr, hframe⟩ := fillParents_eq ht hkey hnd (fa.insert e.2 none)
  obtain ⟨rfl, -⟩ := ht
  rw [labels, List.map_cons, List.nodup_cons] at hnd
  refine ⟨fa', hrun, ?_, hl, hr⟩
  rw [hframe, Map.insert_self]
  exact fun d hd heq => hnd.1 (heq ▸ List.mem_map_of_mem hd)

/-- **The first loop** marks the values on the path to a node. -/
theorem markLoop_eq (ht : Rooted m root t) (hfa : Hung Prod.snd s.fa none t)
    (hw : w = [] ∨ ∃ y, PathTo t w y) :
    ∃ vis, markLoop m s (w.getLast?.map Prod.fst) = pure { s with vis := vis } ∧
      ∀ v, vis.index v false = true ↔ v ∈ w.map Prod.snd ∨ s.vis.index v false = true := by
  induction w using List.reverseRecOn generalizing s with
  | nil =>
    rw [markLoop, List.getLast?_nil, Option.map_none, if_pos rfl]
    exact ⟨s.vis, rfl, by simp⟩
  | append_singleton w y ih =>
    obtain ⟨y', hw⟩ := hw.resolve_left (by simp)
    obtain rfl := hw.end_eq
    obtain ⟨n, hn, hnv⟩ := ht.exists_node hw.end_mem
    have hnv' : n.val = y.2 := hnv
    have hup : s.fa y.2 = some (w.getLast?.map Prod.fst) := hfa.climb hw
    obtain ⟨vis, hrun, hvis⟩ := ih (s := { s with vis := s.vis.insert y.2 true }) hfa
      hw.init
    rw [markLoop, List.getLast?_concat, Option.map_some, if_neg (Option.some_ne_none _),
      Mem.read_some hn, pure_bind, hnv']
    dsimp only
    rw [Map.touch_of_eq_some hup, Map.index_of_eq_some hup, hrun]
    refine ⟨vis, rfl, fun v => ?_⟩
    rw [hvis v, List.map_append, List.mem_append, List.map_singleton, List.mem_singleton]
    by_cases hv : v = y.2
    · rw [hv, Map.index_insert_self]
      simp
    · rw [Map.index_insert_of_ne _ _ _ hv]
      simp [hv]

/-- **The second loop** goes up to the first node that is marked. -/
theorem findLoop_eq {b c : List (Addr × ℤ)} (ht : Rooted m root t)
    (hfa : Hung Prod.snd s.fa none t) (hw : PathTo t (c ++ z :: b) y)
    (hz : s.vis.index z.2 false = true) (hb : ∀ d ∈ b, s.vis.index d.2 false = false) :
    ∃ s', findLoop m s (some y.1) = pure (some z.1, s') := by
  induction b using List.reverseRecOn generalizing s y with
  | nil =>
    obtain rfl := hw.end_eq
    obtain ⟨n, hn, hnv⟩ := ht.exists_node hw.end_mem
    have hnv' : n.val = z.2 := hnv
    rw [findLoop, if_neg (Option.some_ne_none _), Mem.read_some hn, pure_bind, hnv', if_pos hz]
    exact ⟨_, rfl⟩
  | append_singleton b d ih =>
    rw [← List.cons_append, ← List.append_assoc] at hw
    obtain rfl := hw.end_eq
    obtain ⟨n, hn, hnv⟩ := ht.exists_node hw.end_mem
    have hnv' : n.val = d.2 := hnv
    obtain ⟨x, hx⟩ := hw.init.resolve_left (by simp)
    have hup : s.fa d.2 = some (some x.1) := by
      obtain ⟨w', hw'⟩ := hx.exists_init
      rw [hfa.climb hw, hw', List.getLast?_concat, Option.map_some]
    have hd := hb d (List.mem_append_right _ (List.mem_singleton.mpr rfl))
    rw [findLoop, if_neg (Option.some_ne_none _), Mem.read_some hn, pure_bind, hnv', hd,
      if_neg Bool.false_ne_true]
    dsimp only
    rw [Map.touch_of_eq_some hup, Map.index_of_eq_some hup]
    refine ih hfa hx ?_ fun d' hd' => ?_
    · rw [Map.index_touch, hz]
    · rw [Map.index_touch, hb d' (List.mem_append_left _ hd')]

/-- **`lowestCommonAncestor`** finds the node at which the paths part, if nothing is marked. -/
theorem climbs_eq (ht : Rooted m root t) (hnd : ((labels t).map Prod.snd).Nodup)
    (h : Fork t x y z) (hs : s.vis = Map.empty) :
    ∃ s', lowestCommonAncestor m s root (some x.1) (some y.1) = pure (some z.1, s') := by
  obtain ⟨c, a, b, hx, hy, hapart⟩ := h
  have hdis := hapart.disjoint (List.Nodup.of_map _ hnd) hx hy
  cases t with
  | nil => cases hx
  | node e l r =>
    obtain ⟨fa, hrun, hfa⟩ := buildFa_eq ht hnd s.fa
    obtain ⟨-, n, hn, hnv, -⟩ := rooted_node ht
    have hroot : m.read root = pure n := by rw [ht.1, Mem.read_some hn]
    obtain ⟨vis, hmark, hvis⟩ := markLoop_eq (s := { s with fa := fa }) ht hfa (.inr ⟨x, hx⟩)
    obtain ⟨w, hw⟩ := hx.exists_init
    have hlast : (c ++ z :: a).getLast?.map Prod.fst = some x.1 := by
      rw [hw, List.getLast?_concat, Option.map_some]
    have hmarked : ∀ v, vis.index v false = true ↔ v ∈ (c ++ z :: a).map Prod.snd := fun v => by
      rw [hvis v, or_iff_left]
      rw [hs]
      exact Bool.false_ne_true
    rw [hlast] at hmark
    rw [lowestCommonAncestor, hroot, pure_bind, hnv, hrun, pure_bind, hmark, pure_bind]
    refine findLoop_eq ht hfa hy ((hmarked _).mpr (List.mem_map_of_mem (by simp))) fun d hd => ?_
    rw [Bool.eq_false_iff, Ne, hmarked, List.mem_map]
    rintro ⟨d', hd', heq⟩
    have hmem : d ∈ labels (.node e l r) := hy.mem_labels d (by simp [hd])
    obtain rfl := List.inj_on_of_nodup_map hnd (hx.mem_labels d' hd') hmem heq
    exact hdis d' hd hd'

/-- **All three return the lowest common ancestor** of two different nodes, in a tree in which no
value is there twice and with an object in which nothing has been marked. -/
theorem lowestCommonAncestor_eq (ht : Rooted m root t) (hnd : ((labels t).map Prod.snd).Nodup)
    (hx : x ∈ labels t) (hy : y ∈ labels t) (hxy : x ≠ y) (ans : Ptr) :
    ∃ z, (∀ v, IsLca t x y v ↔ v = z) ∧
      lowestCommonAncestorMy m root (some x.1) (some y.1) = pure (some z.1) ∧
      (∃ s, lowestCommonAncestorOfficial1 m ⟨ans, Map.empty, Map.empty⟩ root (some x.1)
        (some y.1) = pure (some z.1, s)) ∧
      ∃ s, lowestCommonAncestor m ⟨ans, Map.empty, Map.empty⟩ root (some x.1) (some y.1) =
        pure (some z.1, s) := by
  obtain ⟨z, hfork, hofficial⟩ := official1_eq ht hnd hx hy hxy ⟨ans, Map.empty, Map.empty⟩
  have hnd' : (labels t).Nodup := List.Nodup.of_map _ hnd
  have hlca := hfork.isLca hnd'
  exact ⟨z, fun v => ⟨fun h => h.unique hlca, fun h => h ▸ hlca⟩,
    lowestCommonAncestorMy_eq ht hnd' hfork, ⟨_, hofficial⟩, climbs_eq ht hnd hfork rfl⟩

/-- A root with two children. -/
def threeNodes : Mem TreeNode :=
  Mem.set (Mem.set (Mem.set (fun _ => none) 1 ⟨7, some 2, some 3⟩) 2 ⟨8, none, none⟩) 3
    ⟨9, none, none⟩

theorem lowestCommonAncestor_eq_three :
    ∃ z, (∀ v, IsLca (.node (1, 7) (.node (2, 8) .nil .nil) (.node (3, 9) .nil .nil)) (2, 8)
        (3, (9 : ℤ)) v ↔ v = z) ∧
      lowestCommonAncestorMy threeNodes (some 1) (some 2) (some 3) = pure (some z.1) ∧
      (∃ s, lowestCommonAncestorOfficial1 threeNodes ⟨none, Map.empty, Map.empty⟩ (some 1)
        (some 2) (some 3) = pure (some z.1, s)) ∧
      ∃ s, lowestCommonAncestor threeNodes ⟨none, Map.empty, Map.empty⟩ (some 1) (some 2)
        (some 3) = pure (some z.1, s) :=
  lowestCommonAncestor_eq
    (show Rooted threeNodes (some 1)
        (.node (1, 7) (.node (2, 8) .nil .nil) (.node (3, 9) .nil .nil)) from
      ⟨rfl, _, rfl, rfl, ⟨rfl, _, rfl, rfl, rfl, rfl⟩, rfl, _, rfl, rfl, rfl, rfl⟩)
    (by decide) (by decide) (by decide) (by decide) none

end LowestCommonAncestor

end Candcpp
