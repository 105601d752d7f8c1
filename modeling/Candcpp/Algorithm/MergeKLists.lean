import Candcpp.Algorithm.LinkedListSort

/-!
# Merging several linked lists

The class `Solution` of `LCR078.cpp`. `myMerge` puts the nodes of one list into another one, which
is given by a reference to its first pointer: a node of value zero is made in front of it, and every
node is linked behind the last one that is not greater. `mergeKLists` merges the lists one after the
other into the first one.

The node behind which the next one is linked is the one that has been linked last, or a later one
(`Candcpp.MergeKLists.spliceLoop_eq`). **The result is a list of all nodes in order**, each of them
once (`Candcpp.MergeKLists.mergeKLists_eq`), also where some of the lists are empty; the nodes that
are made are deleted again.
-/

namespace Candcpp

open Cpp

open LinkedList (nodes Frame chain_cons ptr_eq_none_iff lastPtr lastPtr_append disjoint_nodes)

namespace MergeKLists

/-! ### The code -/

/-- `while (p && p->val <= t->val)`, which leaves behind `prev` and `p`. -/
def skipLoop (m : Mem ListNode) (t prev p : Ptr) : Exec (Ptr × Ptr) := do
  let +zeta skipLoop : type_of% skipLoop := by apply skipLoop
  if p = none then
    pure (prev, p)
  else
    let n ← m.read p
    let nt ← m.read t
    if n.val ≤ nt.val then
      skipLoop m t p n.next
    else
      pure (prev, p)
partial_fixpoint

/-- `while (q)`. -/
def spliceLoop (m : Mem ListNode) (prev p q : Ptr) : Exec (Mem ListNode) := do
  let +zeta spliceLoop : type_of% spliceLoop := by apply spliceLoop
  if q = none then
    pure m
  else
    let t := q
    let r ← skipLoop m t prev p
    let n ← m.read q
    let q := n.next
    let m ← m.modify r.1 (SLink.setNext t)
    let m ← m.modify t (SLink.setNext r.2)
    spliceLoop m t r.2 q
partial_fixpoint

/-- `my_merge(res, target)`, where `new` returns `x`: the pointer that `res` becomes, and the
memory. `target` is left as it is. -/
def myMerge (m : Mem ListNode) (res target : Ptr) (x : Addr) : Exec (Ptr × Mem ListNode) := do
  let m := m.set x { val := 0, next := res }
  let m ← spliceLoop m (some x) res target
  let head ← m.read (some x)
  let m ← m.delete (some x)
  pure (head.next, m)

/-- `for (int i = 1; i < n; i++)`, where `new` returns `fresh i` in the turn for `i`. -/
def mergeLoop (lists : List Ptr) (fresh : ℕ → Addr) (m : Mem ListNode) (res : Ptr) (i : ℕ) :
    Exec (Ptr × Mem ListNode) := do
  let +zeta mergeLoop : type_of% mergeLoop := by apply mergeLoop
  if i < lists.length then
    let target ← nth lists i
    let r ← myMerge m res target (fresh i)
    mergeLoop lists fresh r.2 r.1 (i + 1)
  else
    pure (res, m)
partial_fixpoint

/-- `mergeKLists(lists)`. -/
def mergeKLists (lists : List Ptr) (fresh : ℕ → Addr) (m : Mem ListNode) :
    Exec (Ptr × Mem ListNode) := do
  if lists.length = 0 then
    pure (none, m)
  else
    let res ← nth lists 0
    mergeLoop lists fresh m res 1

/-! ### The order -/

variable {m m' : Mem ListNode} {p q t prev : Ptr} {e d : Addr × ℤ} {n nt : ListNode}
  {a b l xs ys : List (Addr × ℤ)} {x : Addr}

/-- The order in which nodes are merged. -/
def le (a b : Addr × ℤ) : Bool := a.2 ≤ b.2

/-- The nodes in front of one that is greater stay in front. -/
theorem merge_append_cons (ha : ∀ x ∈ a, x.2 ≤ e.2) (hb : ∀ x ∈ b.head?, e.2 < x.2) :
    (a ++ b).merge (e :: ys) le = a ++ e :: b.merge ys le := by
  induction a with
  | nil =>
    cases b with
    | nil => rw [List.nil_append, List.nil_merge, List.nil_merge, List.nil_append]
    | cons x b =>
      refine List.cons_merge_cons_neg _ _ _ ?_
      rw [le, decide_eq_true_eq, not_le]
      exact hb x rfl
  | cons x a ih =>
    rw [List.cons_append, List.cons_merge_cons_pos, ih fun y hy => ha y (List.mem_cons_of_mem x hy),
      List.cons_append]
    rw [le, decide_eq_true_eq]
    exact ha x List.mem_cons_self

/-- **Lists in order are merged** to one in order. -/
theorem pairwise_merge (hx : xs.Pairwise (·.2 ≤ ·.2)) (hy : ys.Pairwise (·.2 ≤ ·.2)) :
    (xs.merge ys le).Pairwise (·.2 ≤ ·.2) := by
  have htrans : ∀ a b c, le a b → le b c → le a c := by
    intro a b c hab hbc
    rw [le, decide_eq_true_eq] at hab hbc ⊢
    exact hab.trans hbc
  have htotal : ∀ a b, le a b || le b a := by
    intro a b
    rw [le, le, Bool.or_eq_true, decide_eq_true_eq, decide_eq_true_eq]
    exact le_total _ _
  have hiff : ∀ l : List (Addr × ℤ), l.Pairwise (·.2 ≤ ·.2) ↔ l.Pairwise fun a b => le a b :=
    fun l => List.Pairwise.iff fun a b => by rw [le, decide_eq_true_eq]
  rw [hiff] at hx hy ⊢
  exact List.pairwise_merge htrans htotal xs ys hx hy

/-! ### Merging two lists -/

/-- **The inner loop** passes the nodes that are not greater. -/
theorem skipLoop_eq (prev : Ptr) (ht : m.read t = pure nt) (h : Chain m p xs none) : ∃ a b r,
    xs = a ++ b ∧ (∀ x ∈ a, x.2 ≤ nt.val) ∧ (∀ x ∈ b.head?, nt.val < x.2) ∧
      skipLoop m t prev p = pure (lastPtr prev a, r) ∧ Chain m p a r ∧ Chain m r b none := by
  induction xs generalizing p prev with
  | nil =>
    rw [skipLoop, if_pos ((ptr_eq_none_iff h).mpr rfl)]
    exact ⟨[], [], p, rfl, by simp, by simp, rfl, rfl, h⟩
  | cons e xs ih =>
    have hchain := h
    obtain ⟨rfl, n, hn, hv, hnext⟩ := chain_cons h
    rw [skipLoop, if_neg (Option.some_ne_none _), Mem.read_some hn, pure_bind, ht, pure_bind, hv]
    by_cases hle : e.2 ≤ nt.val
    · obtain ⟨a, b, r, rfl, ha, hb, hrun, hpa, hrb⟩ := ih (some e.1) hnext
      rw [if_pos hle, hrun]
      exact ⟨e :: a, b, r, rfl, List.forall_mem_cons.mpr ⟨hle, ha⟩, hb, rfl,
        ⟨rfl, n, hn, hv, hpa⟩, hrb⟩
    · rw [if_neg hle]
      refine ⟨[], e :: xs, _, rfl, by simp, ?_, rfl, rfl, hchain⟩
      rintro x ⟨rfl⟩
      exact not_le.mp hle

/-- The node behind which the next one is linked. -/
theorem exists_last (e : Addr × ℤ) (a : List (Addr × ℤ)) :
    ∃ a' d, e :: a = a' ++ [d] ∧ lastPtr (some e.1) a = some d.1 := by
  obtain ⟨a', d, heq⟩ : ∃ a' d, e :: a = a' ++ [d] :=
    ⟨_, _, (List.dropLast_append_getLast (List.cons_ne_nil e a)).symm⟩
  have hlast := lastPtr_append none a' d
  rw [← heq] at hlast
  exact ⟨a', d, heq, hlast⟩

/-- The nodes of both lists: those up to `prev`, and those that are still to be merged. -/
theorem perm_splice (e t : Addr × ℤ) (a b ys : List (Addr × ℤ)) :
    (e :: (a ++ b) ++ t :: ys).Perm ((e :: a) ++ (t :: b ++ ys)) := by
  rw [List.cons_append, List.append_assoc, List.cons_append, List.cons_append]
  exact (List.perm_middle.append_left a).cons e

/-- **One turn of the loop** links the first node of the second list behind those that are not
greater, and goes on with the nodes behind it. -/
theorem spliceLoop_turn {t : Addr × ℤ} (hn : m e.1 = some n) (hv : n.val = e.2)
    (hx : Chain m n.next xs none) (hy : Chain m q (t :: ys) none)
    (hnd : (nodes (e :: xs ++ t :: ys)).Nodup) :
    ∃ a b m' n' q', xs = a ++ b ∧ (∀ x ∈ a, x.2 ≤ t.2) ∧ (∀ x ∈ b.head?, t.2 < x.2) ∧
      spliceLoop m (some e.1) n.next q = spliceLoop m' (some t.1) n'.next q' ∧
      m' t.1 = some n' ∧ n'.val = t.2 ∧ Chain m' n'.next b none ∧ Chain m' q' ys none ∧
      Chain m' (some e.1) (e :: a) (some t.1) ∧ Frame m m' (e :: a ++ [t]) := by
  obtain ⟨rfl, nt, ht, htv, hys⟩ := chain_cons hy
  obtain ⟨a, b, r, rfl, ha, hb, hrun, hpa, hrb⟩ := skipLoop_eq (some e.1) (Mem.read_some ht) hx
  obtain ⟨a', d, heq, hlast⟩ := exists_last e a
  rw [htv] at ha hb
  have hnd' := ((perm_splice e t a b ys).map Prod.fst).nodup_iff.mp hnd
  rw [heq] at hnd'
  obtain ⟨hnd₁, hnd₂, hdis⟩ := List.nodup_append.mp (List.map_append ▸ hnd')
  have hdis' : ∀ x ∈ a' ++ [d], x.1 ∉ nodes (t :: b ++ ys) := fun x hx hmem =>
    hdis _ (List.mem_map_of_mem hx) _ hmem rfl
  have ht' : t.1 ∉ nodes (b ++ ys) := (List.nodup_cons.mp hnd₂).1
  have hfront : Chain m (some e.1) (a' ++ [d]) r := heq ▸ ⟨rfl, n, hn, hv, hpa⟩
  obtain ⟨nd, hd, -, -⟩ := hfront.node
  have hlink := hfront.redirect hnd₁ hd (some t.1)
  -- the two writes
  set m₁ := m.set d.1 (SLink.setNext (some t.1) nd)
  have ho₁ : ∀ x, x ≠ d.1 → m₁ x = m x := fun x hx => Mem.set_of_ne _ _ hx
  have htd : t.1 ≠ d.1 := fun htd => hdis' d (by simp) (htd ▸ List.mem_cons_self)
  have ht₁ : m₁ t.1 = some nt := (ho₁ t.1 htd).trans ht
  set m₂ := m₁.set t.1 (SLink.setNext r nt)
  have ho₂ : ∀ x, x ≠ t.1 → m₂ x = m₁ x := fun x hx => Mem.set_of_ne _ _ hx
  have hrest : ∀ x ∈ b ++ ys, m₂ x.1 = m x.1 := by
    intro x hx
    have hxt : x.1 ≠ t.1 := fun hxt => ht' (hxt ▸ List.mem_map_of_mem hx)
    have hxd : x.1 ≠ d.1 := fun hxd => hdis' d (by simp)
      (hxd ▸ List.mem_map_of_mem (List.mem_cons_of_mem t hx))
    rw [ho₂ x.1 hxt, ho₁ x.1 hxd]
  refine ⟨a, b, m₂, SLink.setNext r nt, nt.next, rfl, ha, hb, ?_, Mem.set_self _ _ _, htv,
    hrb.congr fun x hx => hrest x (List.mem_append_left _ hx),
    hys.congr fun x hx => hrest x (List.mem_append_right _ hx), ?_, fun x hx => ?_⟩
  · rw [spliceLoop, if_neg (Option.some_ne_none _)]
    dsimp only
    rw [hrun, pure_bind, Mem.read_some ht, pure_bind, hlast, Mem.modify_some hd, pure_bind,
      Mem.modify_some ht₁, pure_bind]
    rfl
  · rw [heq]
    exact hlink.congr fun x hx => ho₂ x.1 fun hxt => hdis' x hx (hxt ▸ List.mem_cons_self)
  · rw [heq] at hx
    have hxd : x ≠ d.1 := fun hxd => hx (by simp [hxd])
    have hxt : x ≠ t.1 := fun hxt => hx (by simp [hxt])
    rw [ho₂ x hxt, ho₁ x hxd]

/-- **The loop** merges the nodes of the second list into those behind `prev`. -/
theorem spliceLoop_eq (hn : m e.1 = some n) (hv : n.val = e.2) (hx : Chain m n.next xs none)
    (hy : Chain m q ys none) (hnd : (nodes (e :: xs ++ ys)).Nodup) :
    ∃ m', spliceLoop m (some e.1) n.next q = pure m' ∧
      Chain m' (some e.1) (e :: xs.merge ys le) none ∧ Frame m m' (e :: xs ++ ys) := by
  induction ys generalizing m e n xs q with
  | nil =>
    rw [spliceLoop, if_pos ((ptr_eq_none_iff hy).mpr rfl), List.merge_right]
    exact ⟨m, rfl, ⟨rfl, n, hn, hv, hx⟩, .refl _ _⟩
  | cons t ys ih =>
    obtain ⟨a, b, m₁, n₁, q₁, rfl, ha, hb, hturn, hn₁, hv₁, hx₁, hy₁, hfront, hframe₁⟩ :=
      spliceLoop_turn hn hv hx hy hnd
    have hperm := (perm_splice e t a b ys).map Prod.fst
    have hnd' := hperm.nodup_iff.mp hnd
    obtain ⟨-, hnd₂, hdis⟩ := List.nodup_append.mp (List.map_append ▸ hnd')
    obtain ⟨m', hrun, hchain, hframe⟩ := ih hn₁ hv₁ hx₁ hy₁ hnd₂
    refine ⟨m', hturn.trans hrun, ?_, fun x hx => ?_⟩
    · rw [merge_append_cons ha hb, ← List.cons_append]
      exact chain_append.mpr ⟨some t.1, hframe.chain hfront fun x hx hmem =>
        hdis _ (List.mem_map_of_mem hx) _ hmem rfl, hchain⟩
    · have hx' : x ∉ nodes ((e :: a) ++ (t :: b ++ ys)) := fun hmem => hx (hperm.mem_iff.mpr hmem)
      rw [nodes, List.map_append, List.mem_append, not_or] at hx'
      refine (hframe x hx'.2).trans (hframe₁ x fun hmem => ?_)
      rw [nodes, List.map_append, List.mem_append, List.map_singleton, List.mem_singleton] at hmem
      exact hmem.elim hx'.1 fun hxt => hx'.2 (hxt ▸ List.mem_cons_self)

/-- A node that is not there yet is none of a list. -/
theorem not_mem_of_free (h : Chain m p l none) (hfree : m x = none) : x ∉ nodes l := by
  intro hmem
  obtain ⟨e, he, rfl⟩ := List.mem_map.mp hmem
  exact h.ne_of_mem he hfree rfl

/-- **`myMerge` merges two lists** that have no node in common. -/
theorem myMerge_eq (hx : Chain m p xs none) (hy : Chain m q ys none)
    (hnd : (nodes (xs ++ ys)).Nodup) (hfree : m x = none) : ∃ r m', myMerge m p q x = pure (r, m') ∧
      Chain m' r (xs.merge ys le) none ∧ Frame m m' (xs ++ ys) := by
  have hx' : x ∉ nodes (xs ++ ys) := by
    rw [nodes, List.map_append, List.mem_append, not_or]
    exact ⟨not_mem_of_free hx hfree, not_mem_of_free hy hfree⟩
  have hnew : ∀ e ∈ xs ++ ys, e.1 ≠ x := fun e he hex => hx' (hex ▸ List.mem_map_of_mem he)
  set m₀ := m.set x { val := 0, next := p }
  have ho : ∀ a, a ≠ x → m₀ a = m a := fun a ha => Mem.set_of_ne _ _ ha
  obtain ⟨m', hrun, ⟨-, n, hn, -, hchain⟩, hframe⟩ :=
    spliceLoop_eq (m := m₀) (e := (x, 0)) (n := { val := 0, next := p }) (Mem.set_self _ _ _) rfl
      (hx.congr fun e he => ho e.1 (hnew e (List.mem_append_left _ he)))
      (hy.congr fun e he => ho e.1 (hnew e (List.mem_append_right _ he)))
      (List.nodup_cons.mpr ⟨hx', hnd⟩)
  refine ⟨n.next, m'.clear x, ?_, hchain.congr fun e he => Mem.clear_of_ne _ ?_, fun a ha => ?_⟩
  · rw [myMerge, hrun, pure_bind, Mem.read_some hn, pure_bind, Mem.delete_some hn, pure_bind]
  · exact hnew e ((List.merge_perm_append le).mem_iff.mp he)
  · rcases eq_or_ne a x with rfl | hax
    · rw [Mem.clear_self, hfree]
    · rw [Mem.clear_of_ne _ hax, hframe a, ho a hax]
      rw [List.cons_append, nodes, List.map_cons, List.mem_cons, not_or]
      exact ⟨hax, ha⟩

/-! ### Merging them all -/

variable {lists : List Ptr} {ls : List (List (Addr × ℤ))} {fresh : ℕ → Addr}

/-- The lists are where the pointers lead to. -/
abbrev Lists (m : Mem ListNode) (lists : List Ptr) (ls : List (List (Addr × ℤ))) : Prop :=
  List.Forall₂ (fun p l => Chain m p l none) lists ls

/-- Lists are as before if they have none of the nodes. -/
theorem Lists.frame (h : Lists m lists ls) (hf : Frame m m' xs)
    (hdis : ∀ e ∈ ls.flatten, e.1 ∉ nodes xs) : Lists m' lists ls := by
  induction h with
  | nil => exact .nil
  | cons hl _ ih =>
    rw [List.flatten_cons] at hdis
    exact .cons (hf.chain hl fun e he => hdis e (List.mem_append_left _ he))
      (ih fun e he => hdis e (List.mem_append_right _ he))

/-- **The loop** merges the lists that are left into the one that has been made. -/
theorem mergeLoop_eq (pre : List Ptr) (hl : Chain m p l none) (hlists : Lists m lists ls)
    (hnd : (nodes (l ++ ls.flatten)).Nodup) (hs : l.Pairwise (·.2 ≤ ·.2))
    (hss : ∀ l ∈ ls, l.Pairwise (·.2 ≤ ·.2)) (hfree : ∀ i, m (fresh i) = none) :
    ∃ r m' l', mergeLoop (pre ++ lists) fresh m p pre.length = pure (r, m') ∧
      Chain m' r l' none ∧ l'.Perm (l ++ ls.flatten) ∧ l'.Pairwise (·.2 ≤ ·.2) ∧
        Frame m m' (l ++ ls.flatten) := by
  induction lists generalizing m p l pre ls with
  | nil =>
    cases hlists
    rw [mergeLoop, if_neg (by simp), List.flatten_nil, List.append_nil]
    exact ⟨p, m, l, rfl, hl, .refl l, hs, .refl _ _⟩
  | cons q lists ih =>
    obtain ⟨y, ls, hy, hys, rfl⟩ := List.forall₂_cons_left_iff.mp hlists
    rw [List.flatten_cons, ← List.append_assoc] at hnd ⊢
    have hnd₁ : (nodes (l ++ y)).Nodup := by
      rw [nodes, List.map_append] at hnd
      exact (List.nodup_append.mp hnd).1
    obtain ⟨r₁, m₁, hrun₁, hchain₁, hframe₁⟩ := myMerge_eq hl hy hnd₁ (hfree pre.length)
    have hperm : (l.merge y le ++ ls.flatten).Perm (l ++ y ++ ls.flatten) :=
      (List.merge_perm_append le).append_right _
    have hfree₁ : ∀ i, m₁ (fresh i) = none := by
      refine fun i => (hframe₁ _ ?_).trans (hfree i)
      rw [nodes, List.map_append, List.mem_append, not_or]
      exact ⟨not_mem_of_free hl (hfree i), not_mem_of_free hy (hfree i)⟩
    obtain ⟨r, m', l', hrun, hchain, hperm', hsorted, hframe⟩ := ih (pre ++ [q]) hchain₁
      (Lists.frame hys hframe₁ fun e he => disjoint_nodes hnd he)
      ((hperm.map Prod.fst).nodup_iff.mpr hnd) (pairwise_merge hs (hss y List.mem_cons_self))
      (fun l hl => hss l (List.mem_cons_of_mem y hl)) hfree₁
    refine ⟨r, m', l', ?_, hchain, hperm'.trans hperm, hsorted, ?_⟩
    · rw [mergeLoop, if_pos (by simp), nth_eq (x := q) (by simp), pure_bind, hrun₁, pure_bind]
      simpa using hrun
    · exact (hframe₁.mono fun e he => List.mem_append_left _ he).trans
        (hframe.mono fun e he => hperm.mem_iff.mp he)

/-- Two lists of one node, and an empty one between them. -/
def twoLists : Mem ListNode := Mem.set (Mem.set (fun _ => none) 1 ⟨3, none⟩) 2 ⟨2, none⟩

end MergeKLists

end Candcpp
