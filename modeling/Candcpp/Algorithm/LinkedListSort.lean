import Candcpp.Cpp.Sll
import Candcpp.Order.Merged

/-!
# Sorting a linked list

The method `sort` of the class `LinkedList`, a merge sort. `mergeSort` cuts a list into two at the
node that a slow pointer has come to when a fast one is at the end, sorts both, and merges them with
a recursion on the nodes. The member `head` is overwritten at every level of the recursion; the last
one to do so is the outermost, and a list of less than two nodes is left alone.

No node is lost at the cut (`Candcpp.LinkedList.cut_eq`), the two lists have no node in common when
they are merged (`Candcpp.LinkedList.merge_eq`), and so **`sort` leaves behind a list of the same
nodes in order** (`Candcpp.LinkedList.sort_eq`).
-/

namespace Candcpp

open Cpp

/-- `struct ListNode`. -/
structure ListNode where
  val : ℤ
  next : Ptr
  deriving DecidableEq, Repr

instance : SLink ListNode ℤ where
  val := ListNode.val
  next := ListNode.next
  setNext := fun p n => { n with next := p }
  val_setNext := fun _ _ => rfl
  next_setNext := fun _ _ => rfl

/-- `class LinkedList`, with the memory of its nodes. -/
structure LinkedList where
  mem : Mem ListNode
  head : Ptr

namespace LinkedList

/-! ### The code -/

/-- `LinkedList::merge`, which returns a pointer and changes the memory. -/
def merge (m : Mem ListNode) (left right : Ptr) : Exec (Ptr × Mem ListNode) := do
  let +zeta merge : type_of% merge := by apply merge
  if left = none then
    pure (right, m)
  else if right = none then
    pure (left, m)
  else
    let a ← m.read left
    let b ← m.read right
    if a.val < b.val then
      let p ← merge m a.next right
      let m ← p.2.modify left (SLink.setNext p.1)
      pure (left, m)
    else
      let p ← merge m left b.next
      let m ← p.2.modify right (SLink.setNext p.1)
      pure (right, m)
partial_fixpoint

/-- `while (fast && fast->next)`, which leaves behind `prev` and `slow`. -/
def cutLoop (m : Mem ListNode) (prev slow fast : Ptr) : Exec (Ptr × Ptr) := do
  let +zeta cutLoop : type_of% cutLoop := by apply cutLoop
  if fast = none then
    pure (prev, slow)
  else
    let f ← m.read fast
    if f.next = none then
      pure (prev, slow)
    else
      let s ← m.read slow
      let g ← m.read f.next
      cutLoop m slow s.next g.next
partial_fixpoint

/-- `LinkedList::mergeSort`, which returns a pointer and changes the object. -/
def mergeSort (s : LinkedList) (head : Ptr) : Exec (Ptr × LinkedList) := do
  let +zeta mergeSort : type_of% mergeSort := by apply mergeSort
  if head = none then
    pure (head, s)
  else
    let n ← s.mem.read head
    if n.next = none then
      pure (head, s)
    else
      let p ← cutLoop s.mem none head head
      let m ← s.mem.modify p.1 (SLink.setNext none)
      let left ← mergeSort { s with mem := m } head
      let right ← mergeSort left.2 p.2
      let q ← merge right.2.mem left.1 right.1
      pure (q.1, { mem := q.2, head := q.1 })
partial_fixpoint

/-- `LinkedList::sort`. -/
def sort (s : LinkedList) : Exec LinkedList := do
  let p ← mergeSort s s.head
  pure p.2

/-! ### Merging two lists -/

variable {m m' : Mem ListNode} {p q : Ptr} {l xs ys : List (Addr × ℤ)} {e : Addr × ℤ}
  {n : ListNode} {prev slow fast : Ptr} {s : LinkedList}

/-- The nodes of a list. -/
abbrev nodes (l : List (Addr × ℤ)) : List Addr := l.map Prod.fst

theorem nodes_cons (e : Addr × ℤ) (l : List (Addr × ℤ)) : nodes (e :: l) = e.1 :: nodes l := rfl

theorem nodes_append (xs ys : List (Addr × ℤ)) : nodes (xs ++ ys) = nodes xs ++ nodes ys :=
  List.map_append

/-- The pointers to the nodes of a list. -/
def ptrs (l : List (Addr × ℤ)) : List Ptr := l.map fun e => some e.1

/-- Nothing but the nodes `l` has changed. -/
def Frame (m m' : Mem ListNode) (l : List (Addr × ℤ)) : Prop := ∀ a, a ∉ nodes l → m' a = m a

theorem Frame.refl (m : Mem ListNode) (l : List (Addr × ℤ)) : Frame m m l := fun _ _ => rfl

theorem Frame.trans {m'' : Mem ListNode} (h : Frame m m' l) (h' : Frame m' m'' l) :
    Frame m m'' l := fun a ha => (h' a ha).trans (h a ha)

/-- Some of the nodes. -/
theorem Frame.mono (h : Frame m m' xs) (hsub : ∀ e ∈ xs, e ∈ l) : Frame m m' l := by
  refine fun a ha => h a fun hmem => ha ?_
  obtain ⟨e, he, rfl⟩ := List.mem_map.mp hmem
  exact List.mem_map_of_mem (hsub e he)

/-- A chain is as before if it has none of the nodes. -/
theorem Frame.chain (h : Frame m m' xs) (hc : Chain m p ys q) (hdis : ∀ e ∈ ys, e.1 ∉ nodes xs) :
    Chain m' p ys q := hc.congr fun e he => h e.1 (hdis e he)

theorem chain_cons (h : Chain m p (e :: l) none) :
    p = some e.1 ∧ ∃ n : ListNode, m e.1 = some n ∧ n.val = e.2 ∧ Chain m n.next l none := h

theorem ptr_eq_none_iff (h : Chain m p l none) : p = none ↔ l = [] := by
  cases l with
  | nil => exact iff_of_true h rfl
  | cons e l => exact iff_of_false (by rw [h.1]; exact Option.some_ne_none _) (List.cons_ne_nil e l)

/-- **The first node of a merged list** is put in front when the rest has been merged. -/
theorem chain_front (hn : m e.1 = some n) (hv : n.val = e.2) {r : Ptr} (hf : Frame m m' l)
    (he : e.1 ∉ nodes l) (hperm : xs.Perm l) (hr : Chain m' r xs none) :
    m'.modify (some e.1) (SLink.setNext r) = pure (m'.set e.1 (SLink.setNext r n)) ∧
      Chain (m'.set e.1 (SLink.setNext r n)) (some e.1) (e :: xs) none ∧
      Frame m (m'.set e.1 (SLink.setNext r n)) (e :: l) := by
  have hn' : m' e.1 = some n := (hf e.1 he).trans hn
  refine ⟨Mem.modify_some hn' _, ⟨rfl, _, Mem.set_self _ _ _, hv, ?_⟩, fun a ha => ?_⟩
  · refine hr.congr fun d hd => Mem.set_of_ne _ _ fun hde => he ?_
    exact hde ▸ List.mem_map_of_mem (hperm.mem_iff.mp hd)
  · rw [nodes, List.map_cons, List.mem_cons, not_or] at ha
    rw [Mem.set_of_ne _ _ ha.1]
    exact hf a ha.2

/-- **`merge` merges** two lists that have no node in common. -/
theorem merge_eq (hx : Chain m p xs none) (hy : Chain m q ys none)
    (hnd : (nodes (xs ++ ys)).Nodup) : ∃ r m', merge m p q = pure (r, m') ∧
      Chain m' r (merged Prod.snd xs ys) none ∧ Frame m m' (xs ++ ys) := by
  induction hn : xs.length + ys.length generalizing p q xs ys with
  | zero =>
    obtain rfl : xs = [] := List.eq_nil_of_length_eq_zero (by omega)
    rw [merge, if_pos ((ptr_eq_none_iff hx).mpr rfl), merged_nil_left]
    exact ⟨q, m, rfl, hy, .refl _ _⟩
  | succ k ih =>
    rw [merge]
    cases xs with
    | nil =>
      rw [if_pos ((ptr_eq_none_iff hx).mpr rfl), merged_nil_left]
      exact ⟨q, m, rfl, hy, .refl _ _⟩
    | cons x xs =>
      rw [if_neg (mt (ptr_eq_none_iff hx).mp (List.cons_ne_nil x xs))]
      cases ys with
      | nil =>
        rw [if_pos ((ptr_eq_none_iff hy).mpr rfl), merged_nil_right]
        exact ⟨p, m, rfl, hx, .refl _ _⟩
      | cons y ys =>
        rw [if_neg (mt (ptr_eq_none_iff hy).mp (List.cons_ne_nil y ys))]
        obtain ⟨rfl, a, ha, hav, hxs⟩ := chain_cons hx
        obtain ⟨rfl, b, hb, hbv, hys⟩ := chain_cons hy
        rw [Mem.read_some ha, pure_bind, Mem.read_some hb, pure_bind, hav, hbv]
        rw [List.length_cons, List.length_cons] at hn
        by_cases hlt : x.2 < y.2
        · rw [List.cons_append, nodes, List.map_cons, List.nodup_cons] at hnd
          obtain ⟨r, m', hrun, hr, hf⟩ := ih hxs hy hnd.2 (by rw [List.length_cons]; omega)
          obtain ⟨hmod, hchain, hframe⟩ := chain_front ha hav hf hnd.1 (merged_perm _ _ _) hr
          rw [if_pos hlt, hrun, pure_bind, hmod, pure_bind, merged_left hlt]
          exact ⟨_, _, rfl, hchain, hframe⟩
        · have hswap : (x :: xs ++ y :: ys).Perm (y :: (x :: xs ++ ys)) := List.perm_middle
          have hnd' := List.nodup_cons.mp ((hswap.map Prod.fst).nodup_iff.mp hnd)
          obtain ⟨r, m', hrun, hr, hf⟩ := ih hx hys hnd'.2 (by rw [List.length_cons]; omega)
          obtain ⟨hmod, hchain, hframe⟩ := chain_front hb hbv hf hnd'.1 (merged_perm _ _ _) hr
          rw [if_neg hlt, hrun, pure_bind, hmod, pure_bind, merged_right (not_lt.mp hlt)]
          exact ⟨_, _, rfl, hchain, hframe.mono fun e he => hswap.mem_iff.mpr he⟩

/-! ### The cut -/

/-- The last node of a list, or `prev` if there is none. -/
def lastPtr (prev : Ptr) : List (Addr × ℤ) → Ptr
  | [] => prev
  | e :: l => lastPtr (some e.1) l

theorem lastPtr_append (prev : Ptr) (l : List (Addr × ℤ)) (e : Addr × ℤ) :
    lastPtr prev (l ++ [e]) = some e.1 := by
  induction l generalizing prev with
  | nil => rfl
  | cons d l ih => exact ih _

/-- **The loop** moves the slow pointer on by half the number of nodes before the fast one. -/
theorem cutLoop_eq (prev : Ptr) (hslow : Chain m slow xs none) (hfast : Chain m fast ys none)
    (hle : ys.length ≤ xs.length) : ∃ l₁ l₂ q, xs = l₁ ++ l₂ ∧ l₁.length = ys.length / 2 ∧
      cutLoop m prev slow fast = pure (lastPtr prev l₁, q) ∧ Chain m q l₂ none := by
  induction hn : ys.length using Nat.strong_induction_on generalizing prev slow fast xs ys with
  | _ n ih =>
    rw [cutLoop]
    match ys, hfast with
    | [], hfast =>
      rw [if_pos ((ptr_eq_none_iff hfast).mpr rfl)]
      exact ⟨[], xs, slow, rfl, by simp [← hn], rfl, hslow⟩
    | [d], hfast =>
      obtain ⟨rfl, f, hf, -, hnext⟩ := chain_cons hfast
      rw [if_neg (Option.some_ne_none _), Mem.read_some hf, pure_bind,
        if_pos ((ptr_eq_none_iff hnext).mpr rfl)]
      exact ⟨[], xs, slow, rfl, by simp [← hn], rfl, hslow⟩
    | d :: d' :: ys, hfast =>
      obtain ⟨rfl, f, hf, -, hnext⟩ := chain_cons hfast
      have hmore := mt (ptr_eq_none_iff hnext).mp (List.cons_ne_nil d' ys)
      obtain ⟨hd', g, hg, -, hnext'⟩ := chain_cons hnext
      rw [List.length_cons, List.length_cons] at hle hn
      cases xs with
      | nil => rw [List.length_nil] at hle; omega
      | cons e xs =>
        obtain ⟨rfl, a, ha, -, hxs⟩ := chain_cons hslow
        rw [List.length_cons] at hle
        obtain ⟨l₁, l₂, q, rfl, hlen, hrun, hq⟩ :=
          ih ys.length (by omega) (some e.1) hxs hnext' (by omega) rfl
        rw [if_neg (Option.some_ne_none _), Mem.read_some hf, pure_bind, if_neg hmore,
          Mem.read_some ha, pure_bind, hd', Mem.read_some hg, pure_bind, hrun]
        exact ⟨e :: l₁, l₂, q, rfl, by rw [List.length_cons]; omega, rfl, hq⟩

/-- **The cut** leaves behind two lists of the same nodes, neither of which is empty. -/
theorem cut_eq (h : Chain m p l none) (hlen : 2 ≤ l.length) : ∃ l₁ l₂ prev q m',
    l = l₁ ++ l₂ ∧ l₁.length = l.length / 2 ∧ cutLoop m none p p = pure (prev, q) ∧
      m.modify prev (SLink.setNext none) = pure m' ∧ Chain m' p l₁ none ∧ Chain m' q l₂ none ∧
      Frame m m' l := by
  obtain ⟨l₁, l₂, q, rfl, hhalf, hrun, hq⟩ := cutLoop_eq none h h le_rfl
  have hne : l₁ ≠ [] := by
    rintro rfl
    rw [List.length_nil] at hhalf
    omega
  obtain ⟨l₀, e, rfl⟩ : ∃ l₀ e, l₁ = l₀ ++ [e] := ⟨_, _, (List.dropLast_append_getLast hne).symm⟩
  rw [List.append_assoc, List.singleton_append] at h
  obtain ⟨n, hn, -, -⟩ := h.node
  obtain ⟨hfront, -, hnd, hdis⟩ := h.split hn
  have hmem : e.1 ∈ nodes (l₀ ++ [e]) := List.mem_map_of_mem (by simp)
  rw [lastPtr_append] at hrun
  refine ⟨l₀ ++ [e], l₂, some e.1, q, m.set e.1 (SLink.setNext none n), rfl, hhalf, hrun,
    Mem.modify_some hn _, hfront.redirect hnd hn none, hq.congr fun d hd => ?_, fun a ha => ?_⟩
  · exact Mem.set_of_ne _ _ fun hde => hdis d hd (hde ▸ hmem)
  · refine Mem.set_of_ne _ _ fun hae => ha ?_
    rw [hae, nodes, List.map_append]
    exact List.mem_append_left _ hmem

/-! ### Sorting -/

/-- A list has been sorted: it consists of the same nodes, which are in order. -/
def Sorted (l l' : List (Addr × ℤ)) : Prop := l'.Perm l ∧ l'.Pairwise (·.2 ≤ ·.2)

/-- Two lists that have been sorted are merged. -/
theorem Sorted.merged {xs' ys' : List (Addr × ℤ)} (hx : Sorted xs xs') (hy : Sorted ys ys') :
    Sorted (xs ++ ys) (merged Prod.snd xs' ys') :=
  ⟨(merged_perm _ _ _).trans (hx.1.append hy.1), pairwise_merged hx.2 hy.2⟩

/-- The lists of both parts have no node in common. -/
theorem disjoint_nodes (h : (nodes (xs ++ ys)).Nodup) (he : e ∈ ys) : e.1 ∉ nodes xs := by
  rw [nodes, List.map_append, List.nodup_append] at h
  exact fun hmem => h.2.2 _ hmem _ (List.mem_map_of_mem he) rfl

/-- **`mergeSort` sorts a list**, and leaves the member `head` behind at it if it has two nodes or
more. -/
theorem mergeSort_eq (h : Chain s.mem p l none) : ∃ r s' l', mergeSort s p = pure (r, s') ∧
    Chain s'.mem r l' none ∧ Sorted l l' ∧ Frame s.mem s'.mem l ∧
      (if 2 ≤ l.length then s'.head = r else s' = s ∧ r = p) := by
  induction hn : l.length using Nat.strong_induction_on generalizing s p l with
  | _ n ih =>
    rw [mergeSort]
    match l, h with
    | [], h =>
      rw [if_pos ((ptr_eq_none_iff h).mpr rfl)]
      exact ⟨p, s, [], rfl, h, ⟨.refl _, .nil⟩, .refl _ _, by rw [if_neg (by simp [← hn])]; simp⟩
    | [e], h =>
      obtain ⟨rfl, a, ha, -, hnext⟩ := chain_cons h
      rw [if_neg (Option.some_ne_none _), Mem.read_some ha, pure_bind,
        if_pos ((ptr_eq_none_iff hnext).mpr rfl)]
      exact ⟨_, s, [e], rfl, h, ⟨.refl _, List.pairwise_singleton _ _⟩, .refl _ _,
        by rw [if_neg (by simp [← hn])]; simp⟩
    | e :: e' :: l, h =>
      have hnd := h.nodup
      have hlen : 2 ≤ (e :: e' :: l).length := by simp
      obtain ⟨l₁, l₂, prev, q, m₁, heq, hhalf, hcut, hmod, h₁, h₂, hf⟩ := cut_eq h hlen
      obtain ⟨rfl, a, ha, -, hnext⟩ := chain_cons h
      have hmore := mt (ptr_eq_none_iff hnext).mp (List.cons_ne_nil e' l)
      rw [heq] at hnd hn hlen hhalf hf
      rw [List.length_append] at hn hlen hhalf
      rw [if_neg (Option.some_ne_none _), Mem.read_some ha, pure_bind, if_neg hmore, hcut,
        pure_bind, hmod, pure_bind, heq]
      -- the two parts, one after the other
      obtain ⟨r₁, s₁, l₁', hrun₁, hc₁, hs₁, hf₁, -⟩ :=
        ih l₁.length (by omega) (s := { s with mem := m₁ }) h₁ rfl
      have h₂' : Chain s₁.mem q l₂ none := hf₁.chain h₂ fun d hd => disjoint_nodes hnd hd
      obtain ⟨r₂, s₂, l₂', hrun₂, hc₂, hs₂, hf₂, -⟩ := ih l₂.length (by omega) h₂' rfl
      have hcomm : (l₂ ++ l₁).Perm (l₁ ++ l₂) := List.perm_append_comm
      have hnd' : (nodes (l₂ ++ l₁)).Nodup := (hcomm.map Prod.fst).nodup_iff.mpr hnd
      have hc₁' : Chain s₂.mem r₁ l₁' none :=
        hf₂.chain hc₁ fun d hd => disjoint_nodes hnd' (hs₁.1.mem_iff.mp hd)
      have hperm : (l₁' ++ l₂').Perm (l₁ ++ l₂) := hs₁.1.append hs₂.1
      obtain ⟨r, m₃, hrun₃, hc₃, hf₃⟩ := merge_eq hc₁' hc₂ ((hperm.map Prod.fst).nodup_iff.mpr hnd)
      rw [hrun₁, pure_bind, hrun₂, pure_bind, hrun₃, pure_bind]
      refine ⟨r, ⟨m₃, r⟩, _, rfl, hc₃, hs₁.merged hs₂, ?_, by rw [if_pos (by omega)]⟩
      exact ((hf.trans (hf₁.mono fun d hd => List.mem_append_left _ hd)).trans
        (hf₂.mono fun d hd => List.mem_append_right _ hd)).trans
          (hf₃.mono fun d hd => hperm.mem_iff.mp hd)

/-- **`sort` sorts the list**: it returns, and `head` then points to a list of the same nodes, which
ends at the null pointer and is in order. -/
theorem sort_eq (h : Chain s.mem s.head l none) : ∃ s' l', sort s = pure s' ∧
    Chain s'.mem s'.head l' none ∧ l'.Perm l ∧ l'.Pairwise (·.2 ≤ ·.2) ∧
      ∀ a, a ∉ l.map Prod.fst → s'.mem a = s.mem a := by
  obtain ⟨r, s', l', hrun, hc, hs, hf, hhead⟩ := mergeSort_eq h
  have hr : s'.head = r := by
    split_ifs at hhead with hlen
    · exact hhead
    · rw [hhead.1, hhead.2]
  rw [sort, hrun, pure_bind]
  exact ⟨s', l', rfl, hr ▸ hc, hs.1, hs.2, hf⟩

/-- Two nodes, the greater one first. -/
theorem sort_eq_two : ∃ s' l',
    sort ⟨Mem.set (Mem.set (fun _ => none) 1 ⟨2, some 2⟩) 2 ⟨1, none⟩, some 1⟩ = pure s' ∧
      Chain s'.mem s'.head l' none ∧ l'.Perm [(1, 2), (2, 1)] ∧ l'.Pairwise (·.2 ≤ ·.2) ∧
      ∀ a, a ∉ [(1, 2), (2, (1 : ℤ))].map Prod.fst →
        s'.mem a = Mem.set (Mem.set (fun _ => none) 1 ⟨2, some 2⟩) 2 ⟨1, none⟩ a :=
  sort_eq ⟨rfl, _, rfl, rfl, rfl, _, rfl, rfl, rfl⟩

end LinkedList

end Candcpp
