import Candcpp.Cpp.Exec
import Candcpp.Cpp.Map
import Candcpp.Order.Shapes

/-!
# Binary trees in memory

The trees of nodes in a `Candcpp.Cpp.Mem`, for any class of nodes with a value and two pointers to
children (`Candcpp.Cpp.TLink`). `Candcpp.Cpp.Rooted m p t` says that the pointer `p` leads to a tree
of the shape `t`, whose labels are the addresses of the nodes with their values.

A program that goes upwards keeps a map from each node to its parent. It is filled by a recursion on
the nodes (`Candcpp.Cpp.fillParents`), where a node is entered with its address or with something
that is found there, such as its value. **The map then leads back along the path from the root**
(`Candcpp.Cpp.Hung.climb`), if no two nodes are entered alike.
-/

namespace Candcpp

namespace Cpp

open Shape

/-- A class of nodes with a value and two children. -/
class TLink (ν : Type) (τ : outParam Type) where
  /-- The value of a node. -/
  val : ν → τ
  /-- The pointer to the left child. -/
  left : ν → Ptr
  /-- The pointer to the right child. -/
  right : ν → Ptr

open TLink

variable {ν τ κ : Type} [TLink ν τ]

/-- **A tree in memory**: the pointer `p` leads to nodes with the addresses and values of `t`. -/
def Rooted (m : Mem ν) : Ptr → Shape (Addr × τ) → Prop
  | p, .nil => p = none
  | p, .node e l r => p = some e.1 ∧
      ∃ n, m e.1 = some n ∧ val n = e.2 ∧ Rooted m (left n) l ∧ Rooted m (right n) r

variable {m m' : Mem ν} {p up : Ptr} {t l r : Shape (Addr × τ)} {e d : Addr × τ}

/-- The pointer is the address of the root, or null. -/
theorem Rooted.ptr_eq (h : Rooted m p t) : p = (root? t).map Prod.fst := by
  cases t with
  | nil => exact h
  | node e l r => exact h.1

/-- A tree depends on its own nodes only. -/
theorem Rooted.congr (h : Rooted m p t) (hm : ∀ e ∈ labels t, m' e.1 = m e.1) : Rooted m' p t := by
  induction t generalizing p with
  | nil => exact h
  | node e l r ihl ihr =>
    obtain ⟨hp, n, hn, hv, hl, hr⟩ := h
    refine ⟨hp, n, ?_, hv, ihl hl fun d hd => ?_, ihr hr fun d hd => ?_⟩
    · rw [hm e List.mem_cons_self, hn]
    · exact hm d (List.mem_cons_of_mem _ (List.mem_append_left _ hd))
    · exact hm d (List.mem_cons_of_mem _ (List.mem_append_right _ hd))

/-- The nodes of a tree are alive, and hold their values. -/
theorem Rooted.exists_node (h : Rooted m p t) (he : e ∈ labels t) :
    ∃ n, m e.1 = some n ∧ val n = e.2 := by
  induction t generalizing p with
  | nil => cases he
  | node a l r ihl ihr =>
    obtain ⟨-, n, hn, hv, hl, hr⟩ := h
    rcases List.mem_cons.mp he with rfl | he
    · exact ⟨n, hn, hv⟩
    · exact (List.mem_append.mp he).elim (ihl hl) (ihr hr)

/-- The address of a node determines its label. -/
theorem Rooted.label_eq (h : Rooted m p t) (he : e ∈ labels t) (hd : d ∈ labels t)
    (heq : e.1 = d.1) : e = d := by
  obtain ⟨n, hn, hv⟩ := h.exists_node he
  obtain ⟨n', hn', hv'⟩ := h.exists_node hd
  obtain rfl : n = n' := Option.some.inj (hn.symm.trans (heq ▸ hn'))
  exact Prod.ext heq (hv.symm.trans hv')

/-- The pointer to a node. -/
def addressOf (e : Addr × τ) : Ptr := some e.1

/-- A tree whose labels are all different has different nodes. -/
theorem Rooted.nodup_addresses (h : Rooted m p t) (hnd : (labels t).Nodup) :
    ((labels t).map addressOf).Nodup :=
  hnd.map_on fun _ he _ hd heq => h.label_eq he hd (Option.some.inj heq)

/-! ### Parents -/

/-- The recursion that fills the map from the nodes to their parents, entered by `key`. -/
def fillParents [DecidableEq κ] (m : Mem ν) (key : Ptr → Exec κ) (node : Ptr) (fa : Map κ Ptr) :
    Exec (Map κ Ptr) := do
  let +zeta fillParents : type_of% fillParents := by apply fillParents
  let n ← m.read node
  let fa ← (if left n ≠ none then do
      let k ← key (left n)
      fillParents m key (left n) (fa.insert k node)
    else
      pure fa : Exec (Map κ Ptr))
  if right n ≠ none then
    let k ← key (right n)
    fillParents m key (right n) (fa.insert k node)
  else
    pure fa
partial_fixpoint

/-- **The map leads upwards** from every node of a tree, and from the root to `up`. -/
def Hung (key : Addr × τ → κ) (fa : Map κ Ptr) : Ptr → Shape (Addr × τ) → Prop
  | _, .nil => True
  | up, .node e l r => fa (key e) = some up ∧ Hung key fa (some e.1) l ∧ Hung key fa (some e.1) r

variable {key : Addr × τ → κ} {fa fa' : Map κ Ptr} {q : List (Addr × τ)}

/-- The map is used at the nodes of the tree only. -/
theorem Hung.congr (h : Hung key fa up t) (hfa : ∀ d ∈ labels t, fa' (key d) = fa (key d)) :
    Hung key fa' up t := by
  induction t generalizing up with
  | nil => trivial
  | node e l r ihl ihr =>
    obtain ⟨he, hl, hr⟩ := h
    refine ⟨?_, ihl hl fun d hd => ?_, ihr hr fun d hd => ?_⟩
    · rw [hfa e List.mem_cons_self, he]
    · exact hfa d (List.mem_cons_of_mem _ (List.mem_append_left _ hd))
    · exact hfa d (List.mem_cons_of_mem _ (List.mem_append_right _ hd))

/-- The map has an entry for each node. -/
theorem Hung.exists_entry (h : Hung key fa up t) (hd : d ∈ labels t) :
    ∃ p, fa (key d) = some p := by
  induction t generalizing up with
  | nil => cases hd
  | node e l r ihl ihr =>
    obtain ⟨he, hl, hr⟩ := h
    rcases List.mem_cons.mp hd with rfl | hd
    · exact ⟨up, he⟩
    · exact (List.mem_append.mp hd).elim (ihl hl) (ihr hr)

/-- The entry of a node, on the path to it from below `up`. -/
theorem Hung.entry (h : Hung key fa up t) (hp : PathTo t (q ++ [d]) d) :
    fa (key d) = some ((q.getLast?.map fun x => some x.1).getD up) := by
  induction t generalizing up q with
  | nil => cases hp
  | node e l r ihl ihr =>
    obtain ⟨he, hl, hr⟩ := h
    rcases pathTo_node.mp hp with ⟨hq, rfl⟩ | ⟨p', hq, hp'⟩
    · rw [List.append_eq_singleton_iff] at hq
      obtain ⟨rfl, -⟩ | ⟨-, hq⟩ := hq
      · exact he
      · exact absurd hq (List.cons_ne_nil _ _)
    · cases q with
      | nil =>
        obtain rfl := (List.cons.inj hq).2
        exact hp'.elim (fun hp' => absurd rfl hp'.ne_nil) fun hp' => absurd rfl hp'.ne_nil
      | cons x q =>
        obtain ⟨rfl, rfl⟩ := List.cons.inj hq
        rw [List.getLast?_cons, Option.map_some, Option.getD_some]
        cases hlast : q.getLast? with
        | none =>
          rw [hp'.elim (ihl hl) (ihr hr), hlast]
          rfl
        | some y =>
          rw [hp'.elim (ihl hl) (ihr hr), hlast]
          rfl

/-- **The map leads back along the path** from the root. -/
theorem Hung.climb (h : Hung key fa none t) (hp : PathTo t (q ++ [d]) d) :
    fa (key d) = some (q.getLast?.map Prod.fst) := by
  rw [h.entry hp]
  cases q.getLast? <;> rfl

variable [DecidableEq κ] {keyOf : Ptr → Exec κ}

/-- What is done with a child `p` of the node `up`: its subtree `t` is entered. -/
def Enters (m : Mem ν) (keyOf : Ptr → Exec κ) (key : Addr × τ → κ) (up p : Ptr)
    (t : Shape (Addr × τ)) : Prop :=
  ∀ fa, ∃ fa', (if p ≠ none then do
      let k ← keyOf p
      fillParents m keyOf p (fa.insert k up)
    else
      pure fa : Exec (Map κ Ptr)) = pure fa' ∧ Hung key fa' up t ∧
        ∀ k, (∀ d ∈ labels t, key d ≠ k) → fa' k = fa k

/-- The nodes below a node are entered, if those below its children are. -/
theorem fillParents_of_enters (hp : Rooted m p (.node e l r))
    (hnd : ((labels (.node e l r)).map key).Nodup)
    (hl : ∀ q, Rooted m q l → Enters m keyOf key p q l)
    (hr : ∀ q, Rooted m q r → Enters m keyOf key p q r) (fa : Map κ Ptr) :
    ∃ fa', fillParents m keyOf p fa = pure fa' ∧ Hung key fa' p l ∧ Hung key fa' p r ∧
      ∀ k, (∀ d ∈ labels l ++ labels r, key d ≠ k) → fa' k = fa k := by
  obtain ⟨rfl, n, hn, -, hleft, hright⟩ := hp
  obtain ⟨fa₁, hrun₁, hung₁, hframe₁⟩ := hl (left n) hleft fa
  obtain ⟨fa₂, hrun₂, hung₂, hframe₂⟩ := hr (right n) hright fa₁
  rw [fillParents, Mem.read_some hn, pure_bind, hrun₁, pure_bind, hrun₂]
  refine ⟨fa₂, rfl, hung₁.congr fun d hd => hframe₂ _ fun d' hd' heq => ?_, hung₂, fun k hk => ?_⟩
  · -- the right subtree has none of the keys of the left one
    rw [labels, List.map_cons, List.nodup_cons, List.map_append, List.nodup_append] at hnd
    exact hnd.2.2.2 _ (List.mem_map_of_mem hd) _ (List.mem_map_of_mem hd') heq.symm
  · rw [hframe₂ k fun d hd => hk d (List.mem_append_right _ hd),
      hframe₁ k fun d hd => hk d (List.mem_append_left _ hd)]

/-- A subtree is entered, with its root. -/
theorem enters (hp : Rooted m p t) (hkey : ∀ d ∈ labels t, keyOf (some d.1) = pure (key d))
    (hnd : ((labels t).map key).Nodup) (up : Ptr) : Enters m keyOf key up p t := by
  induction t generalizing p up with
  | nil =>
    intro fa
    have hnull : p = none := hp
    rw [if_neg (not_not.mpr hnull)]
    exact ⟨fa, rfl, trivial, fun _ _ => rfl⟩
  | node e l r ihl ihr =>
    intro fa
    have hnd' := hnd
    rw [labels, List.map_cons, List.nodup_cons, List.map_append, List.nodup_append] at hnd'
    obtain ⟨he, hndl, hndr, -⟩ := hnd'
    obtain ⟨fa', hrun, hl, hr, hframe⟩ := fillParents_of_enters hp hnd
      (fun q hq => ihl hq
        (fun d hd => hkey d (List.mem_cons_of_mem _ (List.mem_append_left _ hd))) hndl p)
      (fun q hq => ihr hq
        (fun d hd => hkey d (List.mem_cons_of_mem _ (List.mem_append_right _ hd))) hndr p)
      (fa.insert (key e) up)
    obtain ⟨rfl, -⟩ := hp
    rw [if_pos (Option.some_ne_none _), hkey e List.mem_cons_self, pure_bind, hrun]
    refine ⟨fa', rfl, ⟨?_, hl, hr⟩, fun k hk => ?_⟩
    · rw [hframe, Map.insert_self]
      intro d hd heq
      exact he (heq ▸ List.map_append ▸ List.mem_map_of_mem hd)
    · rw [hframe k fun d hd => hk d (List.mem_cons_of_mem _ hd),
        Map.insert_of_ne _ _ (hk e List.mem_cons_self).symm]

/-- **The recursion** enters the nodes below the root, and nothing else. -/
theorem fillParents_eq (h : Rooted m p (.node e l r))
    (hkey : ∀ d ∈ labels (.node e l r), keyOf (some d.1) = pure (key d))
    (hnd : ((labels (.node e l r)).map key).Nodup) (fa : Map κ Ptr) :
    ∃ fa', fillParents m keyOf p fa = pure fa' ∧ Hung key fa' p l ∧ Hung key fa' p r ∧
      ∀ k, (∀ d ∈ labels l ++ labels r, key d ≠ k) → fa' k = fa k := by
  have hnd' := hnd
  rw [labels, List.map_cons, List.nodup_cons, List.map_append, List.nodup_append] at hnd'
  obtain ⟨-, hndl, hndr, -⟩ := hnd'
  refine fillParents_of_enters h hnd (fun q hq => enters hq (fun d hd => ?_) hndl p)
    (fun q hq => enters hq (fun d hd => ?_) hndr p) fa
  · exact hkey d (List.mem_cons_of_mem _ (List.mem_append_left _ hd))
  · exact hkey d (List.mem_cons_of_mem _ (List.mem_append_right _ hd))

end Cpp

end Candcpp
