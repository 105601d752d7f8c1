import Candcpp.Algorithm.LinkedListSort

/-!
# Reversing a linked list

The class `Solution` of `LCR024.cpp`, which reverses a list in two ways. `reverseList` calls a
recursive function: it makes the last node the member `head`, and on the way back it lets every
node point to the one in front of it. `reverseListIteration` puts the nodes on a stack and links
them in the order in which they come back.

Both leave the former first node pointing to the second one, so that there is a cycle between these
two until the null pointer is written at the end. **What either way returns is the reversed list of
the same nodes** (`Candcpp.ReverseList.reverse_eq`).

In `reverseList_iteration` the name of the parameter is declared a second time, for the last node;
it is a variable of its own here.
-/

namespace Candcpp

open Cpp

open LinkedList (nodes ptrs Frame chain_cons ptr_eq_none_iff)

namespace ReverseList

/-! ### The code -/

/-- `class Solution`, with the memory of the nodes. -/
structure Solution where
  mem : Mem ListNode
  head : Ptr

/-- `f(node)`. -/
def f (s : Solution) (node : Ptr) : Exec (Ptr × Solution) := do
  let +zeta f : type_of% f := by apply f
  let n ← s.mem.read node
  if n.next = none then
    pure (node, { s with head := node })
  else
    let r ← f s n.next
    let mem ← r.2.mem.modify r.1 (SLink.setNext node)
    pure (node, { r.2 with mem := mem })
partial_fixpoint

/-- `reverseList(head)`. -/
def reverseList (s : Solution) (head : Ptr) : Exec (Ptr × Solution) := do
  if head = none then
    pure (head, s)
  else
    let r ← f s head
    let mem ← r.2.mem.modify r.1 (SLink.setNext none)
    pure (r.2.head, { r.2 with mem := mem })

/-- `while (p->next)`: the stack, and the last node. -/
def pushLoop (m : Mem ListNode) (s : List Ptr) (p : Ptr) : Exec (List Ptr × Ptr) := do
  let +zeta pushLoop : type_of% pushLoop := by apply pushLoop
  let n ← m.read p
  if n.next = none then
    pure (s, p)
  else
    pushLoop m (p :: s) n.next
partial_fixpoint

/-- `while (!s.empty())`: the node that is linked last, and the memory. -/
def linkLoop (m : Mem ListNode) (s : List Ptr) (p : Ptr) : Exec (Ptr × Mem ListNode) :=
  match s with
  | [] => pure (p, m)
  | t :: s => do
    let m ← m.modify p (SLink.setNext t)
    linkLoop m s t

/-- `reverseList_iteration(head)`. -/
def reverseListIteration (m : Mem ListNode) (head : Ptr) : Exec (Ptr × Mem ListNode) := do
  if head = none then
    pure (head, m)
  else
    let r ← pushLoop m [] head
    let e ← linkLoop m r.1 r.2
    let m ← e.2.modify e.1 (SLink.setNext none)
    pure (r.2, m)

/-! ### The recursion -/

variable {m m' : Mem ListNode} {s : Solution} {p : Ptr} {n : ListNode} {e : Addr × ℤ}
  {l : List (Addr × ℤ)}

/-- **A node is linked behind the reversed list** of those that were behind it. -/
theorem relink (hchain : Chain m' p l.reverse (some e.1)) (hframe : Frame m m' l)
    (hn : m e.1 = some n) (hv : n.val = e.2) (hnd : (nodes (e :: l)).Nodup) (q : Ptr) :
    ∃ m'', m'.modify (some e.1) (SLink.setNext q) = pure m'' ∧ Chain m'' p (e :: l).reverse q ∧
      Frame m m'' (e :: l) := by
  have hn' : m' e.1 = some n := (hframe e.1 (List.nodup_cons.mp hnd).1).trans hn
  have hlast : Chain m' p (l.reverse ++ [e]) (SLink.next n) :=
    chain_append.mpr ⟨_, hchain, rfl, n, hn', hv, rfl⟩
  rw [← List.nodup_reverse, nodes, ← List.map_reverse, List.reverse_cons] at hnd
  refine ⟨_, Mem.modify_some hn' _, ?_, fun a ha => ?_⟩
  · rw [List.reverse_cons]
    exact hlast.redirect hnd hn' q
  · rw [nodes, List.map_cons, List.mem_cons, not_or] at ha
    exact (Mem.set_of_ne _ _ ha.1).trans (hframe a ha.2)

/-- **`f` reverses what is behind a node**, and leaves the last one pointing to the node. -/
theorem f_eq (h : Chain s.mem p (e :: l) none) : ∃ s', f s p = pure (some e.1, s') ∧
    Chain s'.mem s'.head l.reverse (some e.1) ∧ Frame s.mem s'.mem l := by
  induction l generalizing p e with
  | nil =>
    obtain ⟨rfl, n, hn, -, hnext⟩ := chain_cons h
    rw [f, Mem.read_some hn, pure_bind, if_pos ((ptr_eq_none_iff hnext).mpr rfl)]
    exact ⟨_, rfl, rfl, .refl _ _⟩
  | cons d l ih =>
    obtain ⟨rfl, n, hn, -, hnext⟩ := chain_cons h
    obtain ⟨s', hrun, hchain, hframe⟩ := ih hnext
    obtain ⟨-, nd, hd, hdv, -⟩ := chain_cons hnext
    obtain ⟨m'', hmod, hchain', hframe'⟩ := relink hchain hframe hd hdv hnext.nodup (some e.1)
    rw [f, Mem.read_some hn, pure_bind,
      if_neg (mt (ptr_eq_none_iff hnext).mp (List.cons_ne_nil d l)), hrun, pure_bind, hmod,
      pure_bind]
    exact ⟨_, rfl, hchain', hframe'⟩

/-- `reverseList` reverses a list. -/
theorem reverseList_eq (h : Chain s.mem p l none) : ∃ r s', reverseList s p = pure (r, s') ∧
    Chain s'.mem r l.reverse none ∧ Frame s.mem s'.mem l := by
  cases l with
  | nil =>
    rw [reverseList, if_pos ((ptr_eq_none_iff h).mpr rfl)]
    exact ⟨p, s, rfl, h, .refl _ _⟩
  | cons e l =>
    obtain ⟨s', hrun, hchain, hframe⟩ := f_eq h
    have hnd := h.nodup
    obtain ⟨rfl, n, hn, hv, -⟩ := chain_cons h
    obtain ⟨m'', hmod, hchain', hframe'⟩ := relink hchain hframe hn hv hnd none
    rw [reverseList, if_neg (Option.some_ne_none _), hrun, pure_bind, hmod, pure_bind]
    exact ⟨_, _, rfl, hchain', hframe'⟩

/-! ### The stack -/

/-- **The loop** puts all nodes but the last on the stack. -/
theorem pushLoop_eq (st : List Ptr) (h : Chain m p (l ++ [e]) none) :
    pushLoop m st p = pure (ptrs l.reverse ++ st, some e.1) := by
  induction l generalizing p st with
  | nil =>
    obtain ⟨rfl, n, hn, -, hnext⟩ := chain_cons h
    rw [pushLoop, Mem.read_some hn, pure_bind, if_pos ((ptr_eq_none_iff hnext).mpr rfl)]
    rfl
  | cons d l ih =>
    obtain ⟨rfl, n, hn, -, hnext⟩ := chain_cons h
    have hmore : l ++ [e] ≠ [] := List.append_ne_nil_of_right_ne_nil l (List.cons_ne_nil e [])
    rw [pushLoop, Mem.read_some hn, pure_bind, if_neg (mt (ptr_eq_none_iff hnext).mp hmore),
      ih _ hnext, ptrs, ptrs, List.reverse_cons, List.map_append, List.append_assoc]
    rfl

/-- **The loop links the nodes of the stack**, and with the null pointer behind the last one there
is a list of them. -/
theorem linkLoop_eq (hnodes : ∀ d ∈ e :: l, ∃ n : ListNode, m d.1 = some n ∧ n.val = d.2)
    (hnd : (nodes (e :: l)).Nodup) : ∃ r m' m'', linkLoop m (ptrs l) (some e.1) = pure (r, m') ∧
      m'.modify r (SLink.setNext none) = pure m'' ∧ Chain m'' (some e.1) (e :: l) none ∧
        Frame m m'' (e :: l) := by
  induction l generalizing m e with
  | nil =>
    obtain ⟨n, hn, hv⟩ := hnodes e List.mem_cons_self
    have hnil : Chain m none ([] : List (Addr × ℤ)) none := rfl
    obtain ⟨hmod, hchain⟩ := hnil.link hn hv List.not_mem_nil
    refine ⟨_, m, _, rfl, hmod, hchain, fun a ha => Mem.set_of_ne _ _ fun hae => ha ?_⟩
    exact hae ▸ List.mem_cons_self
  | cons d l ih =>
    obtain ⟨n, hn, hv⟩ := hnodes e List.mem_cons_self
    have he : e.1 ∉ nodes (d :: l) := (List.nodup_cons.mp hnd).1
    have hne : ∀ b ∈ d :: l, b.1 ≠ e.1 := fun b hb hbe => he (hbe ▸ List.mem_map_of_mem hb)
    obtain ⟨r, m', m'', hrun, hmod, hchain, hframe⟩ :=
      ih (m := m.set e.1 (SLink.setNext (some d.1) n)) (e := d)
        (fun b hb => by
          rw [Mem.set_of_ne _ _ (hne b hb)]
          exact hnodes b (List.mem_cons_of_mem e hb))
        (List.nodup_cons.mp hnd).2
    refine ⟨r, m', m'', ?_, hmod, ⟨rfl, _, (hframe e.1 he).trans (Mem.set_self _ _ _), hv, hchain⟩,
      fun a ha => ?_⟩
    · rw [ptrs, List.map_cons, linkLoop, Mem.modify_some hn, pure_bind]
      exact hrun
    · rw [nodes, List.map_cons, List.mem_cons, not_or] at ha
      exact (hframe a ha.2).trans (Mem.set_of_ne _ _ ha.1)

/-- `reverseListIteration` reverses a list. -/
theorem reverseListIteration_eq (h : Chain m p l none) :
    ∃ r m', reverseListIteration m p = pure (r, m') ∧ Chain m' r l.reverse none ∧
      Frame m m' l := by
  cases l using List.reverseRecOn with
  | nil =>
    rw [reverseListIteration, if_pos ((ptr_eq_none_iff h).mpr rfl)]
    exact ⟨p, m, rfl, h, .refl _ _⟩
  | append_singleton l e =>
    have hrev : (l ++ [e]).reverse = e :: l.reverse := List.reverse_concat
    have hnd : (nodes (e :: l.reverse)).Nodup := by
      rw [← hrev, nodes, List.map_reverse, List.nodup_reverse]
      exact h.nodup
    obtain ⟨r, m', m'', hrun, hmod, hchain, hframe⟩ := linkLoop_eq (fun d hd => by
      rw [← hrev, List.mem_reverse] at hd
      exact h.exists_node hd) hnd
    have hne : l ++ [e] ≠ [] := List.append_ne_nil_of_right_ne_nil l (List.cons_ne_nil e [])
    rw [reverseListIteration, if_neg (mt (ptr_eq_none_iff h).mp hne), pushLoop_eq [] h, pure_bind,
      List.append_nil, hrun, pure_bind, hmod, pure_bind, hrev]
    refine ⟨_, m'', rfl, hchain, fun a ha => hframe a fun hmem => ha ?_⟩
    rwa [← hrev, nodes, List.map_reverse, List.mem_reverse] at hmem

/-! ### Both ways -/

/-- **Both ways return the reversed list**: the same nodes with their values, the last one first,
up to the null pointer. No other node changes. -/
theorem reverse_eq (h : Chain s.mem p l none) :
    (∃ r s', reverseList s p = pure (r, s') ∧ Chain s'.mem r l.reverse none ∧
      Frame s.mem s'.mem l) ∧
    ∃ r m', reverseListIteration s.mem p = pure (r, m') ∧ Chain m' r l.reverse none ∧
      Frame s.mem m' l :=
  ⟨reverseList_eq h, reverseListIteration_eq h⟩

/-- Two nodes. -/
def twoNodes : Mem ListNode := Mem.set (Mem.set (fun _ => none) 1 ⟨7, some 2⟩) 2 ⟨8, none⟩

theorem reverse_eq_two :
    (∃ r s', reverseList ⟨twoNodes, none⟩ (some 1) = pure (r, s') ∧
      Chain s'.mem r [(2, 8), (1, 7)] none ∧ Frame twoNodes s'.mem [(1, 7), (2, 8)]) ∧
    ∃ r m', reverseListIteration twoNodes (some 1) = pure (r, m') ∧
      Chain m' r [(2, 8), (1, 7)] none ∧ Frame twoNodes m' [(1, 7), (2, 8)] :=
  reverse_eq (s := ⟨twoNodes, none⟩)
    (show Chain twoNodes (some 1) [(1, 7), (2, 8)] none from
      ⟨rfl, _, rfl, rfl, rfl, _, rfl, rfl, rfl⟩)

end ReverseList

end Candcpp
