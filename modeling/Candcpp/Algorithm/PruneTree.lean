import Candcpp.Algorithm.BinaryTree

/-!
# Trees that are changed in place

`flipTree` of `LCR144.cpp` and `pruneTree` of `LCR047.cpp`. Both go through a tree with a recursion
that changes the pointers of its nodes, and neither makes a node or gives one back.

The first one leaves the mirror image of the tree, and **a second call undoes it: the memory is what
it was** (`Candcpp.PruneTree.flipTree_twice`). The second one cuts off the subtrees in which all
values are zero (`Candcpp.Shape.pruned`): **what is left are the paths that lead on to some other
value** (`Candcpp.PruneTree.pruneTree_rooted`).

In a tree no node is there twice.
-/

namespace Candcpp

open Cpp

/-! ### Shapes -/

namespace Shape

variable {α : Type} {a x y : α} {l r t : Shape α} {p : List α} {keep : α → Bool}

/-- The mirror image. -/
def mirror : Shape α → Shape α
  | .nil => .nil
  | .node a l r => .node a (mirror r) (mirror l)

/-- A tree without the subtrees in which nothing is to be kept. -/
def pruned (keep : α → Bool) : Shape α → Shape α
  | .nil => .nil
  | .node a l r =>
    if (labels (.node a l r)).any keep then .node a (pruned keep l) (pruned keep r) else .nil

theorem mirror_mirror (t : Shape α) : mirror (mirror t) = t := by
  induction t with
  | nil => rfl
  | node a l r ihl ihr => rw [mirror, mirror, ihl, ihr]

theorem labels_mirror (t : Shape α) : (labels (mirror t)).Perm (labels t) := by
  induction t with
  | nil => exact .refl _
  | node a l r ihl ihr => exact ((ihr.append ihl).trans List.perm_append_comm).cons a

theorem labels_pruned (keep : α → Bool) (t : Shape α) :
    (labels (pruned keep t)).Sublist (labels t) := by
  induction t with
  | nil => exact .refl _
  | node a l r ihl ihr =>
    rw [pruned]
    split_ifs
    · exact (ihl.append ihr).cons_cons a
    · exact List.nil_sublist _

/-- **The paths that are left** are those that can be gone on with to a node that is to be kept. -/
theorem pathTo_pruned (hnd : (labels t).Nodup) : PathTo (pruned keep t) p y ↔
    PathTo t p y ∧ ∃ q z, PathTo t (p ++ q) z ∧ keep z = true := by
  induction t generalizing p with
  | nil => exact ⟨nofun, fun h => nomatch h.1⟩
  | node a l r ihl ihr =>
    obtain ⟨-, hndl, hndr, hdisj⟩ := nodup_node hnd
    have ihl := ihl (p := p.tail) hndl
    have ihr := ihr (p := p.tail) hndr
    rw [pruned]
    split_ifs with h
    · constructor
      · intro hp
        cases hp with
        | root =>
          obtain ⟨z, hz, hk⟩ := List.any_eq_true.mp h
          obtain ⟨p', hp'⟩ := exists_pathTo hz
          obtain ⟨b, q, rfl⟩ := List.exists_cons_of_ne_nil hp'.ne_nil
          obtain rfl : b = _ := Option.some.inj hp'.head
          exact ⟨.root, q, z, hp', hk⟩
        | left hp =>
          obtain ⟨hp, q, z, hz, hk⟩ := ihl.mp hp
          exact ⟨hp.left, q, z, hz.left, hk⟩
        | right hp =>
          obtain ⟨hp, q, z, hz, hk⟩ := ihr.mp hp
          exact ⟨hp.right, q, z, hz.right, hk⟩
      · rintro ⟨hp, q, z, hz, hk⟩
        -- a path that begins in one subtree goes on there
        cases hp with
        | root => exact .root
        | @left _ _ _ _ p' hp =>
          obtain ⟨b, hb⟩ := List.exists_mem_of_ne_nil p' hp.ne_nil
          obtain ⟨hq, -⟩ | ⟨p₁, hq, hz⟩ := pathTo_node.mp hz
          · exact absurd (List.append_eq_nil_iff.mp (List.cons.inj hq).2).1 hp.ne_nil
          · obtain rfl : p' ++ q = p₁ := (List.cons.inj hq).2
            obtain hz | hz := hz
            · exact (ihl.mpr ⟨hp, q, z, hz, hk⟩).left
            · exact absurd (hz.mem_labels b (List.mem_append_left _ hb))
                (hdisj b (hp.mem_labels b hb))
        | @right _ _ _ _ p' hp =>
          obtain ⟨b, hb⟩ := List.exists_mem_of_ne_nil p' hp.ne_nil
          obtain ⟨hq, -⟩ | ⟨p₁, hq, hz⟩ := pathTo_node.mp hz
          · exact absurd (List.append_eq_nil_iff.mp (List.cons.inj hq).2).1 hp.ne_nil
          · obtain rfl : p' ++ q = p₁ := (List.cons.inj hq).2
            obtain hz | hz := hz
            · exact absurd (hp.mem_labels b hb)
                (hdisj b (hz.mem_labels b (List.mem_append_left _ hb)))
            · exact (ihr.mpr ⟨hp, q, z, hz, hk⟩).right
    · -- nothing is to be kept
      refine ⟨nofun, ?_⟩
      rintro ⟨-, q, z, hz, hk⟩
      exact absurd (List.any_eq_true.mpr ⟨z, hz.end_mem, hk⟩) h

end Shape

namespace PruneTree

open Shape

/-! ### The code -/

/-- `flipTree(root)`: what it returns, and the memory. -/
def flipTree (m : Mem TreeNode) (root : Ptr) : Exec (Ptr × Mem TreeNode) := do
  let +zeta flipTree : type_of% flipTree := by apply flipTree
  if root = none then
    pure (none, m)
  else
    let n ← m.read root
    let l ← flipTree m n.left
    let n ← l.2.read root
    let r ← flipTree l.2 n.right
    let m ← r.2.modify root (BinaryTree.setLeft r.1)
    let m ← m.modify root (BinaryTree.setRight l.1)
    pure (root, m)
partial_fixpoint

/-- `dfs(node)`: what it returns, and the memory. -/
def dfs (m : Mem TreeNode) (node : Ptr) : Exec (Bool × Mem TreeNode) := do
  let +zeta dfs : type_of% dfs := by apply dfs
  if node = none then
    pure (true, m)
  else
    let n ← m.read node
    let l ← dfs m n.left
    let n ← l.2.read node
    let r ← dfs l.2 n.right
    let m ← (if l.1 then r.2.modify node (BinaryTree.setLeft none) else pure r.2 :
      Exec (Mem TreeNode))
    let m ← (if r.1 then m.modify node (BinaryTree.setRight none) else pure m :
      Exec (Mem TreeNode))
    let n ← m.read node
    pure (l.1 && r.1 && n.val = 0, m)
partial_fixpoint

/-- `pruneTree(root)`: what it returns, and the memory. -/
def pruneTree (m : Mem TreeNode) (root : Ptr) : Exec (Ptr × Mem TreeNode) := do
  let r ← dfs m root
  pure (if r.1 then none else root, r.2)

/-! ### Trees in memory -/

variable {m m' m'' : Mem TreeNode} {p q : Ptr} {e : Addr × ℤ} {t l r : Shape (Addr × ℤ)}

/-- The addresses of the nodes of a tree. -/
def addresses (t : Shape (Addr × ℤ)) : List Addr := (labels t).map Prod.fst

/-- The memory is as it was, except at some addresses. -/
def SameBut (as : List Addr) (m m' : Mem TreeNode) : Prop := ∀ a, a ∉ as → m' a = m a

theorem SameBut.rooted {as : List Addr} (hm : SameBut as m m') (h : Rooted m p t)
    (hdisj : ∀ a ∈ addresses t, a ∉ as) : Rooted m' p t :=
  h.congr fun d hd => hm d.1 (hdisj d.1 (List.mem_map_of_mem hd))

/-- A node with two subtrees, none of which it is in. -/
theorem rooted_set {v : ℤ} {a : Addr} (hl : Rooted m p l) (hr : Rooted m q r)
    (hal : a ∉ addresses l) (har : a ∉ addresses r) :
    Rooted (m.set a ⟨v, p, q⟩) (some a) (.node (a, v) l r) := by
  have hne : ∀ {s : Shape (Addr × ℤ)}, a ∉ addresses s → ∀ d ∈ labels s,
      m.set a ⟨v, p, q⟩ d.1 = m d.1 := fun has d hd =>
    m.set_of_ne _ fun heq => has (heq ▸ List.mem_map_of_mem hd)
  exact ⟨rfl, ⟨v, p, q⟩, m.set_self a _, rfl, hl.congr (hne hal), hr.congr (hne har)⟩

/-- The addresses of a tree without repetitions. -/
theorem nodup_addresses_node (h : (addresses (.node e l r)).Nodup) :
    (e.1 ∉ addresses l ∧ e.1 ∉ addresses r) ∧ (addresses l).Nodup ∧ (addresses r).Nodup ∧
      ∀ a ∈ addresses l, a ∉ addresses r := by
  rw [addresses, labels, List.map_cons, List.map_append, List.nodup_cons, List.mem_append, not_or,
    List.nodup_append] at h
  exact ⟨h.1, h.2.1, h.2.2.1, fun a ha ha' => h.2.2.2 a ha a ha' rfl⟩

theorem SameBut.node (h : SameBut (addresses l) m m') (h' : SameBut (addresses r) m' m'')
    (n : TreeNode) : SameBut (addresses (.node e l r)) m (m''.set e.1 n) := by
  intro a ha
  rw [addresses, labels, List.map_cons, List.map_append, List.mem_cons, List.mem_append, not_or,
    not_or] at ha
  rw [m''.set_of_ne n ha.1, h' a ha.2.2, h a ha.2.1]

/-- A tree and its root determine what its nodes hold. -/
theorem rooted_unique (h : Rooted m p t) (h' : Rooted m' p t) (he : e ∈ labels t) :
    m' e.1 = m e.1 := by
  induction t generalizing p with
  | nil => cases he
  | node d l r ihl ihr =>
    obtain ⟨-, ⟨v, left, right⟩, hn, hv, hl, hr⟩ := rooted_node h
    obtain ⟨-, ⟨v', left', right'⟩, hn', hv', hl', hr'⟩ := rooted_node h'
    obtain rfl : v' = v := hv'.trans hv.symm
    obtain rfl : left' = left := hl'.ptr_eq.trans hl.ptr_eq.symm
    obtain rfl : right' = right := hr'.ptr_eq.trans hr.ptr_eq.symm
    rcases List.mem_cons.mp he with rfl | he
    · exact hn'.trans hn.symm
    · exact (List.mem_append.mp he).elim (ihl hl hl') (ihr hr hr')

/-! ### The mirror image -/

theorem addresses_mirror {a : Addr} : a ∈ addresses (mirror t) ↔ a ∈ addresses t :=
  ((labels_mirror t).map Prod.fst).mem_iff

theorem flipTree_rooted (h : Rooted m p t) (hnd : (addresses t).Nodup) :
    ∃ m', flipTree m p = pure (p, m') ∧ Rooted m' p (mirror t) ∧ SameBut (addresses t) m m' := by
  induction t generalizing m p with
  | nil =>
    obtain rfl : p = none := h
    refine ⟨m, ?_, rfl, fun _ _ => rfl⟩
    rw [flipTree, if_pos rfl]
  | node e l r ihl ihr =>
    obtain ⟨a, v⟩ := e
    obtain ⟨rfl, n, hn, rfl, hl, hr⟩ := rooted_node h
    obtain ⟨⟨hal, har⟩, hndl, hndr, hdisj⟩ := nodup_addresses_node hnd
    obtain ⟨m₁, hrun₁, hl₁, hsame₁⟩ := ihl hl hndl
    obtain ⟨m₂, hrun₂, hr₂, hsame₂⟩ :=
      ihr (hsame₁.rooted hr fun b hb hbl => hdisj b hbl hb) hndr
    have hn₁ : m₁ a = some n := (hsame₁ a hal).trans hn
    have hn₂ : m₂ a = some n := (hsame₂ a har).trans hn₁
    have hl₂ : Rooted m₂ n.left (mirror l) :=
      hsame₂.rooted hl₁ fun b hb => hdisj b (addresses_mirror.mp hb)
    refine ⟨m₂.set a ⟨n.val, n.right, n.left⟩, ?_, ?_, hsame₁.node hsame₂ _⟩
    · rw [flipTree, if_neg (Option.some_ne_none a), Mem.read_some hn, pure_bind, hrun₁, pure_bind,
        Mem.read_some hn₁, pure_bind, hrun₂, pure_bind, Mem.modify_some hn₂, pure_bind,
        Mem.modify_some (m₂.set_self a _), pure_bind, Mem.set_set]
      rfl
    · exact rooted_set hr₂ hl₂ (mt addresses_mirror.mp har) (mt addresses_mirror.mp hal)

/-- **A tree is flipped in place**: its root leads to the mirror image, of the same nodes with the
same values, nothing else has changed, and to flip it again gives the memory back. -/
theorem flipTree_twice (h : Rooted m p t) (hnd : (addresses t).Nodup) :
    ∃ m', flipTree m p = pure (p, m') ∧ Rooted m' p (mirror t) ∧ SameBut (addresses t) m m' ∧
      flipTree m' p = pure (p, m) := by
  obtain ⟨m', hrun, hflipped, hsame⟩ := flipTree_rooted h hnd
  have hnd' : (addresses (mirror t)).Nodup := ((labels_mirror t).map Prod.fst).nodup_iff.mpr hnd
  obtain ⟨m'', hrun', hback, hsame'⟩ := flipTree_rooted hflipped hnd'
  rw [mirror_mirror] at hback
  obtain rfl : m'' = m := by
    funext a
    by_cases ha : a ∈ addresses t
    · obtain ⟨e, he, rfl⟩ := List.mem_map.mp ha
      exact rooted_unique h hback he
    · rw [hsame' a (mt addresses_mirror.mp ha), hsame a ha]
  exact ⟨m', hrun, hflipped, hsame, hrun'⟩

/-- The value zero above the value five, and to its right a zero without children. -/
def threeNodes : Mem TreeNode
  | 1 => some ⟨0, some 2, some 3⟩
  | 2 => some ⟨5, none, none⟩
  | 3 => some ⟨0, none, none⟩
  | _ => none

/-- Its shape. -/
def threeLabels : Shape (Addr × ℤ) :=
  .node (1, 0) (.node (2, 5) .nil .nil) (.node (3, 0) .nil .nil)

theorem rooted_threeNodes : Rooted threeNodes (some 1) threeLabels :=
  ⟨rfl, _, rfl, rfl, ⟨rfl, _, rfl, rfl, rfl, rfl⟩, ⟨rfl, _, rfl, rfl, rfl, rfl⟩⟩

theorem flipTree_twice_three : ∃ m', flipTree threeNodes (some 1) = pure (some 1, m') ∧
    Rooted m' (some 1) (mirror threeLabels) ∧ SameBut (addresses threeLabels) threeNodes m' ∧
      flipTree m' (some 1) = pure (some 1, threeNodes) :=
  flipTree_twice rooted_threeNodes (by decide)

/-! ### Cutting off what is zero -/

/-- The value of a node is not zero. -/
def nonzero (e : Addr × ℤ) : Bool := e.2 ≠ 0

theorem addresses_pruned {a : Addr} (ha : a ∈ addresses (pruned nonzero t)) : a ∈ addresses t :=
  ((labels_pruned nonzero t).map Prod.fst).subset ha

/-- A node that is changed on a condition. -/
theorem modify_if {a : Addr} {n : TreeNode} (hn : m a = some n) (b : Bool)
    (f : TreeNode → TreeNode) :
    (if b then m.modify (some a) f else pure m : Exec (Mem TreeNode)) =
      pure (m.set a (if b then f n else n)) := by
  cases b with
  | true => exact Mem.modify_some hn f
  | false => exact congrArg pure (Mem.set_eq_self hn).symm

/-- What is cut off a node. -/
theorem cut_node (n : TreeNode) (keepLeft keepRight : Bool) :
    (if !keepRight then
      BinaryTree.setRight none (if !keepLeft then BinaryTree.setLeft none n else n)
    else if !keepLeft then BinaryTree.setLeft none n else n) =
      ⟨n.val, if keepLeft then n.left else none, if keepRight then n.right else none⟩ := by
  cases keepLeft <;> cases keepRight <;> rfl

theorem dfs_rooted (h : Rooted m p t) (hnd : (addresses t).Nodup) :
    ∃ m', dfs m p = pure (!(labels t).any nonzero, m') ∧
      Rooted m' (if (labels t).any nonzero then p else none) (pruned nonzero t) ∧
      SameBut (addresses t) m m' := by
  induction t generalizing m p with
  | nil =>
    obtain rfl : p = none := h
    refine ⟨m, ?_, rfl, fun _ _ => rfl⟩
    rw [dfs, if_pos rfl]
    rfl
  | node e l r ihl ihr =>
    obtain ⟨a, v⟩ := e
    obtain ⟨rfl, n, hn, rfl, hl, hr⟩ := rooted_node h
    obtain ⟨⟨hal, har⟩, hndl, hndr, hdisj⟩ := nodup_addresses_node hnd
    obtain ⟨m₁, hrun₁, hl₁, hsame₁⟩ := ihl hl hndl
    obtain ⟨m₂, hrun₂, hr₂, hsame₂⟩ :=
      ihr (hsame₁.rooted hr fun b hb hbl => hdisj b hbl hb) hndr
    have hn₁ : m₁ a = some n := (hsame₁ a hal).trans hn
    have hn₂ : m₂ a = some n := (hsame₂ a har).trans hn₁
    have hl₂ := hsame₂.rooted hl₁ fun b hb => hdisj b (addresses_pruned hb)
    have hany : (labels (.node (a, n.val) l r)).any nonzero =
        (decide (n.val ≠ 0) || ((labels l).any nonzero || (labels r).any nonzero)) := by
      rw [labels, List.any_cons, List.any_append, nonzero]
    have hdfs : dfs m (some a) = pure (!(labels (.node (a, n.val) l r)).any nonzero,
        m₂.set a ⟨n.val, if (labels l).any nonzero then n.left else none,
          if (labels r).any nonzero then n.right else none⟩) := by
      rw [hany, dfs, if_neg (Option.some_ne_none a), Mem.read_some hn, pure_bind, hrun₁, pure_bind,
        Mem.read_some hn₁, pure_bind, hrun₂, pure_bind, modify_if hn₂, pure_bind,
        modify_if (m₂.set_self a _), pure_bind, Mem.set_set, Mem.read_some (m₂.set_self a _),
        pure_bind]
      rw [cut_node]
      refine congrArg (fun b => pure (b, _)) ?_
      show (!(labels l).any nonzero && !(labels r).any nonzero && decide (n.val = 0)) = _
      rw [Bool.not_or, Bool.not_or, ← decide_not, Bool.and_comm]
      simp only [ne_eq, not_not]
    refine ⟨_, hdfs, ?_, hsame₁.node hsame₂ _⟩
    rw [pruned]
    by_cases hkeep : (labels (.node (a, n.val) l r)).any nonzero = true
    · rw [if_pos hkeep, if_pos hkeep]
      exact rooted_set hl₂ hr₂ (mt addresses_pruned hal) (mt addresses_pruned har)
    · rw [if_neg hkeep, if_neg hkeep]
      rfl

/-- **What is left of a tree** are its paths that lead on to a node whose value is not zero, with
the nodes they had; nothing outside of the tree has changed. -/
theorem pruneTree_rooted (h : Rooted m p t) (hnd : (addresses t).Nodup) :
    ∃ p' m', pruneTree m p = pure (p', m') ∧ Rooted m' p' (pruned nonzero t) ∧
      SameBut (addresses t) m m' ∧ ∀ path e, PathTo (pruned nonzero t) path e ↔
        PathTo t path e ∧ ∃ q z, PathTo t (path ++ q) z ∧ z.2 ≠ 0 := by
  obtain ⟨m', hrun, hrooted, hsame⟩ := dfs_rooted h hnd
  refine ⟨if (labels t).any nonzero then p else none, m', ?_, hrooted, hsame, fun path e => ?_⟩
  · rw [pruneTree, hrun, pure_bind]
    cases (labels t).any nonzero <;> rfl
  · rw [pathTo_pruned hnd.of_map]
    simp [nonzero]

theorem pruneTree_rooted_three : ∃ p' m', pruneTree threeNodes (some 1) = pure (p', m') ∧
    Rooted m' p' (pruned nonzero threeLabels) ∧ SameBut (addresses threeLabels) threeNodes m' ∧
      ∀ path e, PathTo (pruned nonzero threeLabels) path e ↔
        PathTo threeLabels path e ∧ ∃ q z, PathTo threeLabels (path ++ q) z ∧ z.2 ≠ 0 :=
  pruneTree_rooted rooted_threeNodes (by decide)

end PruneTree

end Candcpp
