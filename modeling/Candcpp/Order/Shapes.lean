import Mathlib

/-!
# Binary trees and their paths

The shape of a binary tree with a label at every node (`Candcpp.Shape`), its labels, and the path
from the root to a node (`Candcpp.Shape.PathTo`). If no label is there twice there is one path to
each node (`Candcpp.Shape.PathTo.unique`), and a node is in the subtree of another one exactly if
the path to it comes through that one (`Candcpp.Shape.below_iff`).

A path from some node downwards (`Candcpp.Shape.HasPath`) is the end of a path from the root.

Two nodes have a deepest common ancestor (`Candcpp.Shape.IsLca`): the node at which the paths to
them part (`Candcpp.Shape.Fork`), where one of them may end.
-/

namespace Candcpp

/-- **Binary trees** with a label at every node. -/
abbrev Shape (α : Type) := BinaryTree α

namespace Shape

variable {α β : Type}

/-- The labels of a tree, the root first. -/
def labels : Shape α → List α
  | .nil => []
  | .node a l r => a :: (labels l ++ labels r)

/-- The label of the root, if there is one. -/
def root? : Shape α → Option α
  | .nil => none
  | .node a _ _ => some a

/-- **The path** from the root to a node, both of them included. -/
inductive PathTo : Shape α → List α → α → Prop
  /-- To the root. -/
  | root {a : α} {l r : Shape α} : PathTo (.node a l r) [a] a
  /-- Into the left subtree. -/
  | left {a y : α} {l r : Shape α} {p : List α} : PathTo l p y → PathTo (.node a l r) (a :: p) y
  /-- Into the right subtree. -/
  | right {a y : α} {l r : Shape α} {p : List α} : PathTo r p y → PathTo (.node a l r) (a :: p) y

/-- **A downward path**, from any node to one below it. -/
inductive HasPath : Shape α → List α → Prop
  /-- From the root. -/
  | here {t : Shape α} {p : List α} {y : α} : PathTo t p y → HasPath t p
  /-- In the left subtree. -/
  | left {a : α} {l r : Shape α} {p : List α} : HasPath l p → HasPath (.node a l r) p
  /-- In the right subtree. -/
  | right {a : α} {l r : Shape α} {p : List α} : HasPath r p → HasPath (.node a l r) p

/-- **The subtrees** of a tree. -/
inductive Subtree : Shape α → Shape α → Prop
  /-- The tree itself. -/
  | refl (t : Shape α) : Subtree t t
  /-- Those of the left subtree. -/
  | left {a : α} {l r s : Shape α} : Subtree s l → Subtree s (.node a l r)
  /-- Those of the right subtree. -/
  | right {a : α} {l r s : Shape α} : Subtree s r → Subtree s (.node a l r)

/-- `y` is in the subtree of `x`. -/
def Below (t : Shape α) (x y : α) : Prop :=
  ∃ l r, Subtree (.node x l r) t ∧ y ∈ labels (.node x l r)

/-- The node `x` is `d` steps below the root. -/
def Depth (t : Shape α) (x : α) (d : ℕ) : Prop := ∃ p, PathTo t p x ∧ p.length = d + 1

/-- **The deepest node** that has both `p` and `q` in its subtree. -/
structure IsLca (t : Shape α) (p q x : α) : Prop where
  left : Below t x p
  right : Below t x q
  deepest : ∀ y d e, Below t y p → Below t y q → Depth t y d → Depth t x e → y = x ∨ d < e

/-- Two paths do not go on with the same node. -/
def Apart (p q : List α) : Prop := ∀ x ∈ p.head?, x ∉ q.head?

/-- **The node at which the paths** to `p` and `q` part. -/
def Fork (t : Shape α) (p q x : α) : Prop :=
  ∃ c a b, PathTo t (c ++ x :: a) p ∧ PathTo t (c ++ x :: b) q ∧ Apart a b

variable {t l r s : Shape α} {a x y z : α} {p p' q q' : List α}

/-! ### Paths -/

theorem PathTo.ne_nil (h : PathTo t p y) : p ≠ [] := by
  cases h <;> exact List.cons_ne_nil _ _

/-- A path ends with the node. -/
theorem PathTo.exists_init (h : PathTo t p y) : ∃ p', p = p' ++ [y] := by
  induction h with
  | root => exact ⟨[], rfl⟩
  | left _ ih | right _ ih =>
    obtain ⟨p', rfl⟩ := ih
    exact ⟨_ :: p', rfl⟩

/-- A path begins with the root. -/
theorem PathTo.head (h : PathTo t p y) : p.head? = root? t := by
  cases h <;> rfl

theorem PathTo.mem_labels (h : PathTo t p y) : ∀ x ∈ p, x ∈ labels t := by
  induction h with
  | root => simp [labels]
  | left _ ih =>
    refine List.forall_mem_cons.mpr ⟨List.mem_cons_self, fun x hx => ?_⟩
    exact List.mem_cons_of_mem _ (List.mem_append_left _ (ih x hx))
  | right _ ih =>
    refine List.forall_mem_cons.mpr ⟨List.mem_cons_self, fun x hx => ?_⟩
    exact List.mem_cons_of_mem _ (List.mem_append_right _ (ih x hx))

theorem PathTo.end_mem (h : PathTo t p y) : y ∈ labels t := by
  obtain ⟨p', rfl⟩ := h.exists_init
  exact h.mem_labels y (List.mem_append_right _ (List.mem_singleton.mpr rfl))

/-- **There is a path to every node.** -/
theorem exists_pathTo (h : y ∈ labels t) : ∃ p, PathTo t p y := by
  induction t with
  | nil => cases h
  | node a l r ihl ihr =>
    rcases List.mem_cons.mp h with rfl | h
    · exact ⟨_, .root⟩
    · rcases List.mem_append.mp h with h | h
      · obtain ⟨p, hp⟩ := ihl h
        exact ⟨_, hp.left⟩
      · obtain ⟨p, hp⟩ := ihr h
        exact ⟨_, hp.right⟩

/-- A path in a tree with a root. -/
theorem pathTo_node : PathTo (.node a l r) p y ↔
    (p = [a] ∧ y = a) ∨ ∃ p', p = a :: p' ∧ (PathTo l p' y ∨ PathTo r p' y) := by
  constructor
  · intro h
    cases h with
    | root => exact .inl ⟨rfl, rfl⟩
    | left h => exact .inr ⟨_, rfl, .inl h⟩
    | right h => exact .inr ⟨_, rfl, .inr h⟩
  · rintro (⟨rfl, rfl⟩ | ⟨p', rfl, h | h⟩)
    · exact .root
    · exact h.left
    · exact h.right

/-- A path leads to each of its nodes, up to there. -/
theorem PathTo.take (h : PathTo t (p ++ x :: q) y) : PathTo t (p ++ [x]) x := by
  induction p generalizing t with
  | nil =>
    cases t with
    | nil => cases h
    | node a l r =>
      have hx : x = a := Option.some.inj h.head
      exact hx ▸ .root
  | cons b p ih =>
    cases t with
    | nil => cases h
    | node a l r =>
      rcases pathTo_node.mp h with ⟨hp, -⟩ | ⟨p', hp, h⟩
      · exact absurd (List.cons.inj hp).2 (List.append_ne_nil_of_right_ne_nil p (by simp))
      · obtain ⟨rfl, rfl⟩ := List.cons.inj hp
        exact h.elim (fun h => (ih h).left) fun h => (ih h).right

theorem PathTo.end_eq (h : PathTo t (p ++ [x]) y) : x = y := by
  obtain ⟨q, hq⟩ := h.exists_init
  exact (List.cons.inj (List.append_inj' hq rfl).2).1

/-- What is before the last node of a path leads to the node above. -/
theorem PathTo.init (h : PathTo t (p ++ [y]) y) : p = [] ∨ ∃ x, PathTo t p x := by
  rcases List.eq_nil_or_concat p with rfl | ⟨q, x, rfl⟩
  · exact .inl rfl
  · rw [List.concat_eq_append, List.append_assoc] at h
    exact .inr ⟨x, by rw [List.concat_eq_append]; exact h.take⟩

/-- The labels of the subtrees of a tree without repetitions. -/
theorem nodup_node (h : (labels (.node a l r)).Nodup) : (a ∉ labels l ∧ a ∉ labels r) ∧
    (labels l).Nodup ∧ (labels r).Nodup ∧ ∀ x ∈ labels l, x ∉ labels r := by
  rw [labels, List.nodup_cons, List.mem_append, not_or, List.nodup_append] at h
  exact ⟨h.1, h.2.1, h.2.2.1, fun x hx hx' => h.2.2.2 x hx x hx' rfl⟩

/-- **There is one path** to each node. -/
theorem PathTo.unique (hnd : (labels t).Nodup) (h : PathTo t p y) (h' : PathTo t p' y) :
    p = p' := by
  induction h generalizing p' with
  | @root a l r =>
    obtain ⟨⟨hl, hr⟩, -⟩ := nodup_node hnd
    rcases pathTo_node.mp h' with ⟨rfl, -⟩ | ⟨p', -, h' | h'⟩
    · rfl
    · exact absurd h'.end_mem hl
    · exact absurd h'.end_mem hr
  | @left a y l r p h ih =>
    obtain ⟨⟨hl, -⟩, hndl, -, hdis⟩ := nodup_node hnd
    rcases pathTo_node.mp h' with ⟨-, rfl⟩ | ⟨p', rfl, h' | h'⟩
    · exact absurd h.end_mem hl
    · rw [ih hndl h']
    · exact absurd h'.end_mem (hdis y h.end_mem)
  | @right a y l r p h ih =>
    obtain ⟨⟨-, hr⟩, -, hndr, hdis⟩ := nodup_node hnd
    rcases pathTo_node.mp h' with ⟨-, rfl⟩ | ⟨p', rfl, h' | h'⟩
    · exact absurd h.end_mem hr
    · exact absurd h.end_mem (hdis y h'.end_mem)
    · rw [ih hndr h']

/-- A path comes through each node once. -/
theorem PathTo.nodup (hnd : (labels t).Nodup) (h : PathTo t p y) : p.Nodup := by
  induction h with
  | root => exact List.nodup_singleton _
  | left h ih =>
    obtain ⟨⟨hl, -⟩, hndl, -⟩ := nodup_node hnd
    exact List.nodup_cons.mpr ⟨fun hmem => hl (h.mem_labels _ hmem), ih hndl⟩
  | right h ih =>
    obtain ⟨⟨-, hr⟩, -, hndr, -⟩ := nodup_node hnd
    exact List.nodup_cons.mpr ⟨fun hmem => hr (h.mem_labels _ hmem), ih hndr⟩

/-- **A downward path** is the end of a path from the root. -/
theorem hasPath_iff : HasPath t p ↔ p ≠ [] ∧ ∃ q y, PathTo t (q ++ p) y := by
  constructor
  · intro h
    induction h with
    | here h => exact ⟨h.ne_nil, [], _, h⟩
    | left _ ih =>
      obtain ⟨hne, q, y, hq⟩ := ih
      exact ⟨hne, _ :: q, y, hq.left⟩
    | right _ ih =>
      obtain ⟨hne, q, y, hq⟩ := ih
      exact ⟨hne, _ :: q, y, hq.right⟩
  · rintro ⟨hne, q, y, h⟩
    induction q generalizing t with
    | nil => exact .here h
    | cons b q ih =>
      cases t with
      | nil => cases h
      | node a l r =>
        rcases pathTo_node.mp h with ⟨hp, -⟩ | ⟨p', hp, h⟩
        · exact absurd (List.cons.inj hp).2 (List.append_ne_nil_of_right_ne_nil q hne)
        · obtain ⟨rfl, rfl⟩ := List.cons.inj hp
          exact h.elim (fun h => (ih h).left) fun h => (ih h).right

/-! ### Ancestors -/

/-- A path in a subtree is the end of a path in the tree. -/
theorem Subtree.pathTo (h : Subtree s t) (hp : PathTo s p y) : ∃ q, PathTo t (q ++ p) y := by
  induction h with
  | refl t => exact ⟨[], hp⟩
  | left _ ih =>
    obtain ⟨q, hq⟩ := ih hp
    exact ⟨_ :: q, hq.left⟩
  | right _ ih =>
    obtain ⟨q, hq⟩ := ih hp
    exact ⟨_ :: q, hq.right⟩

/-- **A node is in the subtree of another one** exactly if a path to it comes through that one. -/
theorem below_iff : Below t x y ↔ ∃ p, PathTo t p y ∧ x ∈ p := by
  constructor
  · rintro ⟨l, r, hsub, hy⟩
    obtain ⟨p, hp⟩ := exists_pathTo hy
    obtain ⟨q, hq⟩ := hsub.pathTo hp
    exact ⟨_, hq, List.mem_append_right _ (List.mem_of_mem_head? hp.head)⟩
  · rintro ⟨p, hp, hx⟩
    induction hp with
    | root =>
      obtain rfl := List.mem_singleton.mp hx
      exact ⟨_, _, .refl _, List.mem_cons_self⟩
    | left h ih =>
      rcases List.mem_cons.mp hx with rfl | hx
      · exact ⟨_, _, .refl _, h.left.end_mem⟩
      · obtain ⟨l', r', hsub, hy⟩ := ih hx
        exact ⟨l', r', hsub.left, hy⟩
    | right h ih =>
      rcases List.mem_cons.mp hx with rfl | hx
      · exact ⟨_, _, .refl _, h.right.end_mem⟩
      · obtain ⟨l', r', hsub, hy⟩ := ih hx
        exact ⟨l', r', hsub.right, hy⟩

/-- Every node that has another one in its subtree is at some depth. -/
theorem Below.exists_depth (h : Below t x y) : ∃ d, Depth t x d := by
  obtain ⟨p, hp, hx⟩ := below_iff.mp h
  obtain ⟨q, q', rfl⟩ := List.append_of_mem hx
  exact ⟨q.length, _, hp.take, List.length_append⟩

/-- There is one deepest common ancestor. -/
theorem IsLca.unique (h : IsLca t x y z) (h' : IsLca t x y a) : z = a := by
  obtain ⟨d, hd⟩ := h.left.exists_depth
  obtain ⟨e, he⟩ := h'.left.exists_depth
  rcases h'.deepest z d e h.left h.right hd he with heq | hlt
  · exact heq
  · rcases h.deepest a e d h'.left h'.right he hd with heq | hlt'
    · exact heq.symm
    · omega

/-- **The depth of a node** is the number of nodes before it on a path. -/
theorem Depth.eq (hnd : (labels t).Nodup) (h : PathTo t (p ++ x :: q) y) {d : ℕ}
    (hd : Depth t x d) : d = p.length := by
  obtain ⟨p', hp', hlen⟩ := hd
  rw [hp'.unique hnd h.take, List.length_append, List.length_singleton] at hlen
  exact (Nat.succ_injective hlen).symm

/-- **The node at which the paths part** is the deepest common ancestor. -/
theorem Fork.isLca (hnd : (labels t).Nodup) (h : Fork t x y z) : IsLca t x y z := by
  obtain ⟨c, a, b, hx, hy, hapart⟩ := h
  refine ⟨below_iff.mpr ⟨_, hx, by simp⟩, below_iff.mpr ⟨_, hy, by simp⟩, ?_⟩
  intro w d e hwx hwy hd he
  obtain ⟨p, hp, hwp⟩ := below_iff.mp hwx
  obtain ⟨q, hq, hwq⟩ := below_iff.mp hwy
  obtain rfl := hp.unique hnd hx
  obtain rfl := hq.unique hnd hy
  obtain ⟨p₁, p₂, hp₁⟩ := List.append_of_mem hwp
  obtain ⟨q₁, q₂, hq₁⟩ := List.append_of_mem hwq
  -- the way to `w` is the same on both paths
  have hsame : p₁ = q₁ := by
    rw [hp₁] at hx
    rw [hq₁] at hy
    exact List.append_cancel_right (hx.take.unique hnd hy.take)
  subst hsame
  rw [Depth.eq hnd hx he]
  rw [hp₁] at hx
  rw [Depth.eq hnd hx hd]
  rcases List.append_eq_append_iff.mp hp₁ with ⟨s, rfl, hs⟩ | ⟨s, hs₁, hs⟩
  · cases s with
    | nil => exact .inl (List.cons.inj hs).1.symm
    | cons u s =>
      -- both paths would go on with the same node
      obtain ⟨rfl, rfl⟩ := List.cons.inj hs
      rw [List.append_assoc, List.cons_append] at hq₁
      have hb := (List.cons.inj (List.append_cancel_left hq₁)).2
      rw [hb] at hapart
      cases s with
      | nil => exact absurd rfl (hapart w rfl)
      | cons v s => exact absurd rfl (hapart v rfl)
  · cases s with
    | nil => exact .inl (List.cons.inj hs).1
    | cons u s =>
      rw [hs₁, List.length_append, List.length_cons]
      exact .inr (by omega)

/-! ### Where two paths part -/

/-- **After they have parted** the paths have no node in common. -/
theorem Apart.disjoint {c : List α} (hnd : (labels t).Nodup) (hx : PathTo t (c ++ z :: p) x)
    (hy : PathTo t (c ++ z :: q) y) (h : Apart p q) : ∀ w ∈ q, w ∉ c ++ z :: p := by
  intro w hwq hwp
  obtain ⟨q₁, q₂, rfl⟩ := List.append_of_mem hwq
  obtain ⟨p₁, p₂, hp⟩ := List.append_of_mem hwp
  rw [hp] at hx
  rw [← List.cons_append, ← List.append_assoc] at hy
  have hsame : p₁ = c ++ z :: q₁ := List.append_cancel_right (hx.take.unique hnd hy.take)
  rw [hsame, List.append_assoc, List.cons_append] at hp
  rw [(List.cons.inj (List.append_cancel_left hp)).2] at h
  cases q₁ with
  | nil => exact absurd rfl (h w rfl)
  | cons v q₁ => exact absurd rfl (h v rfl)

/-- The paths part in the left subtree. -/
theorem Fork.left (h : Fork l x y z) : Fork (.node a l r) x y z := by
  obtain ⟨c, p, q, hx, hy, hapart⟩ := h
  exact ⟨a :: c, p, q, hx.left, hy.left, hapart⟩

/-- The paths part in the right subtree. -/
theorem Fork.right (h : Fork r x y z) : Fork (.node a l r) x y z := by
  obtain ⟨c, p, q, hx, hy, hapart⟩ := h
  exact ⟨a :: c, p, q, hx.right, hy.right, hapart⟩

end Shape

end Candcpp
