import Candcpp.Algorithm.LinkedListSort

/-!
# Where two linked lists meet

Three ways to find the first node that two lists have in common, in `160.cpp` (the first one also in
`LCR023.cpp`): two pointers that each walk one list after the other, a set of the nodes of the first
list, and two nested loops.

From the first common node on two lists are the same (`Candcpp.IntersectionNode.exists_meets`). The
two pointers never are at one node as long as they have different numbers of nodes before them. When
the one that has begun on the longer list turns to the shorter one, the numbers become equal, and
the pointers come to the first common node together, or to the null pointer. A run of the loop is
counted (`Candcpp.IntersectionNode.Iterates`): **it ends after at most one turn more than both lists
have nodes**, and all three ways agree (`Candcpp.IntersectionNode.getIntersectionNode_eq`).
-/

namespace Candcpp

open Cpp

open LinkedList (nodes nodes_cons nodes_append chain_cons ptr_eq_none_iff)

namespace IntersectionNode

/-! ### The code -/

/-- `p = p == nullptr ? other : p->next`. -/
def advance (m : Mem ListNode) (p other : Ptr) : Exec Ptr := do
  if p = none then
    pure other
  else
    let n ← m.read p
    pure n.next

/-- `while (p != q)`. -/
def meetLoop (m : Mem ListNode) (l l2 p q : Ptr) : Exec Ptr := do
  let +zeta meetLoop : type_of% meetLoop := by apply meetLoop
  if p = q then
    pure p
  else
    let p ← advance m p l2
    let q ← advance m q l
    meetLoop m l l2 p q
partial_fixpoint

/-- `getIntersectionNode(l, l2)`. -/
def getIntersectionNode (m : Mem ListNode) (l l2 : Ptr) : Exec Ptr := do
  if l = none ∨ l2 = none then
    pure none
  else
    meetLoop m l l2 l l2

/-- The first loop of `getIntersectionNode_hs`, which fills the set. -/
def visitLoop (m : Mem ListNode) (visited : Finset Ptr) (p : Ptr) : Exec (Finset Ptr) := do
  let +zeta visitLoop : type_of% visitLoop := by apply visitLoop
  if p = none then
    pure visited
  else
    let n ← m.read p
    visitLoop m (insert p visited) n.next
partial_fixpoint

/-- The second loop of `getIntersectionNode_hs`. -/
def findLoop (m : Mem ListNode) (visited : Finset Ptr) (p : Ptr) : Exec Ptr := do
  let +zeta findLoop : type_of% findLoop := by apply findLoop
  if p = none then
    pure none
  else if p ∈ visited then
    pure p
  else
    let n ← m.read p
    findLoop m visited n.next
partial_fixpoint

/-- `getIntersectionNode_hs(l, l2)`. -/
def getIntersectionNodeHs (m : Mem ListNode) (l l2 : Ptr) : Exec Ptr := do
  let visited ← visitLoop m ∅ l
  findLoop m visited l2

/-- The inner loop of `getIntersectionNode_bf`: whether it returns `p`. -/
def innerLoop (m : Mem ListNode) (p q : Ptr) : Exec Bool := do
  let +zeta innerLoop : type_of% innerLoop := by apply innerLoop
  if q = none then
    pure false
  else if p = q then
    pure true
  else
    let n ← m.read q
    innerLoop m p n.next
partial_fixpoint

/-- The outer loop of `getIntersectionNode_bf`. -/
def outerLoop (m : Mem ListNode) (l2 p : Ptr) : Exec Ptr := do
  let +zeta outerLoop : type_of% outerLoop := by apply outerLoop
  if p = none then
    pure none
  else if ← innerLoop m p l2 then
    pure p
  else
    let n ← m.read p
    outerLoop m l2 n.next
partial_fixpoint

/-- `getIntersectionNode_bf(l, l2)`. -/
def getIntersectionNodeBf (m : Mem ListNode) (l l2 : Ptr) : Exec Ptr := outerLoop m l2 l

/-- **A run of the loop** of `getIntersectionNode` that ends with `r`, with the number of its
turns. -/
inductive Iterates (m : Mem ListNode) (l l2 : Ptr) : ℕ → Ptr → Ptr → Ptr → Prop
  /-- The pointers are equal. -/
  | done (r : Ptr) : Iterates m l l2 0 r r r
  /-- A turn, and the run from there on. -/
  | turn {k : ℕ} {p q p' q' r : Ptr} : p ≠ q → advance m p l2 = pure p' → advance m q l = pure q' →
      Iterates m l l2 k p' q' r → Iterates m l l2 (k + 1) p q r

/-- **The first common node** of two lists, or null. -/
def firstCommon (la lb : List (Addr × ℤ)) : Ptr := (nodes la).find? (· ∈ nodes lb)

/-! ### Lists that meet -/

variable {m : Mem ListNode} {p q r l l2 : Ptr} {e : Addr × ℤ} {k : ℕ} {v : Finset Ptr}
  {la lb xs ys zs a b l₁ l₂ : List (Addr × ℤ)}

/-- The pointer to the first node of a list. -/
def entry (l : List (Addr × ℤ)) : Ptr := (nodes l).head?

theorem chain_entry (h : Chain m p l₁ none) : p = entry l₁ := by
  cases l₁ with
  | nil => exact h
  | cons e l => exact h.1

/-- **Two lists that meet** in `zs`, with nothing in common before. -/
structure Meets (la lb xs ys zs : List (Addr × ℤ)) : Prop where
  left : la = xs ++ zs
  right : lb = ys ++ zs
  left_apart : ∀ x ∈ nodes xs, x ∉ nodes lb
  right_apart : ∀ y ∈ nodes ys, y ∉ nodes la

theorem Meets.symm (h : Meets la lb xs ys zs) : Meets lb la ys xs zs :=
  ⟨h.right, h.left, h.right_apart, h.left_apart⟩

/-- The first node of the rest is the first common one. -/
theorem Meets.firstCommon_eq (h : Meets la lb xs ys zs) : firstCommon la lb = entry zs := by
  have hxs : (nodes xs).find? (· ∈ nodes lb) = none := by
    rw [List.find?_eq_none]
    simpa using h.left_apart
  rw [firstCommon, h.left, nodes_append, List.find?_append, hxs, Option.none_or]
  cases zs with
  | nil => rfl
  | cons e zs =>
    rw [nodes_cons, List.find?_cons_of_pos]
    · rfl
    · rw [h.right]
      simp

/-- **Two lists meet**, since a node leads to one list only. -/
theorem exists_meets (ha : Chain m p la none) (hb : Chain m q lb none) :
    ∃ xs ys zs, Meets la lb xs ys zs := by
  induction la generalizing p with
  | nil => exact ⟨[], lb, [], rfl, (List.append_nil lb).symm, by simp, by simp⟩
  | cons e la ih =>
    by_cases he : e.1 ∈ nodes lb
    · -- from here on the lists are the same
      obtain ⟨d, hd, hde⟩ := List.mem_map.mp he
      obtain ⟨ys, zs, rfl⟩ := List.append_of_mem hd
      have hnd := hb.nodup
      obtain ⟨r, -, hrest⟩ := chain_append.mp hb
      have hr : r = p := by rw [hrest.1, ha.1, hde]
      have hsame := ha.unique (hr ▸ hrest)
      refine ⟨[], ys, e :: la, rfl, by rw [hsame], by simp, fun y hy hmem => ?_⟩
      rw [List.map_append, List.nodup_append] at hnd
      exact hnd.2.2 y hy y (hsame ▸ hmem) rfl
    · obtain ⟨rfl, n, -, -, hnext⟩ := chain_cons ha
      obtain ⟨xs, ys, zs, h⟩ := ih hnext
      refine ⟨e :: xs, ys, zs, by rw [h.left, List.cons_append], h.right, fun x hx => ?_,
        fun y hy hmem => ?_⟩
      · rcases List.mem_cons.mp hx with rfl | hx
        · exact he
        · exact h.left_apart x hx
      · rcases List.mem_cons.mp hmem with rfl | hmem
        · refine he ?_
          rw [h.right, nodes_append]
          exact List.mem_append_left _ hy
        · exact h.right_apart y hy hmem

/-! ### The set and the nested loops -/

/-- **The first loop** fills the set with the nodes of a list. -/
theorem visitLoop_eq (v : Finset Ptr) (h : Chain m p l₁ none) : ∃ v', visitLoop m v p = pure v' ∧
    ∀ q, q ∈ v' ↔ q ∈ v ∨ ∃ x ∈ nodes l₁, q = some x := by
  induction l₁ generalizing p v with
  | nil =>
    rw [visitLoop, if_pos ((ptr_eq_none_iff h).mpr rfl)]
    exact ⟨v, rfl, by simp⟩
  | cons e l₁ ih =>
    obtain ⟨rfl, n, hn, -, hnext⟩ := chain_cons h
    obtain ⟨v', hrun, hv'⟩ := ih (insert (some e.1) v) hnext
    rw [visitLoop, if_neg (Option.some_ne_none _), Mem.read_some hn, pure_bind, hrun]
    refine ⟨v', rfl, fun q => ?_⟩
    rw [hv' q, Finset.mem_insert, nodes_cons, List.exists_mem_cons_iff]
    tauto

/-- **The second loop** comes to the first node that is in the set. -/
theorem findLoop_eq (h : Chain m p (ys ++ zs) none) (hys : ∀ y ∈ nodes ys, some y ∉ v)
    (hzs : ∀ z ∈ nodes zs, some z ∈ v) : findLoop m v p = pure (entry zs) := by
  induction ys generalizing p with
  | nil =>
    cases zs with
    | nil =>
      rw [findLoop, if_pos ((ptr_eq_none_iff h).mpr rfl)]
      rfl
    | cons e zs =>
      obtain ⟨rfl, -⟩ := chain_cons h
      rw [findLoop, if_neg (Option.some_ne_none _), if_pos (hzs e.1 List.mem_cons_self)]
      rfl
  | cons e ys ih =>
    obtain ⟨rfl, n, hn, -, hnext⟩ := chain_cons h
    rw [findLoop, if_neg (Option.some_ne_none _), if_neg (hys e.1 List.mem_cons_self),
      Mem.read_some hn, pure_bind]
    exact ih hnext fun y hy => hys y (List.mem_cons_of_mem _ hy)

/-- `getIntersectionNodeHs` returns the first common node. -/
theorem getIntersectionNodeHs_eq (ha : Chain m p la none) (hb : Chain m q lb none)
    (h : Meets la lb xs ys zs) : getIntersectionNodeHs m p q = pure (entry zs) := by
  obtain ⟨v, hrun, hv⟩ := visitLoop_eq ∅ ha
  have hmem : ∀ x, some x ∈ v ↔ x ∈ nodes la := by
    intro x
    rw [hv]
    simp
  rw [getIntersectionNodeHs, hrun, pure_bind]
  refine findLoop_eq (h.right ▸ hb) (fun y hy => ?_) fun z hz => ?_
  · rw [hmem]
    exact h.right_apart y hy
  · rw [hmem, h.left, nodes_append]
    exact List.mem_append_right _ hz

/-- **The inner loop** looks for a node in a list. -/
theorem innerLoop_eq (x : Addr) (h : Chain m q lb none) :
    innerLoop m (some x) q = pure (decide (x ∈ nodes lb)) := by
  induction lb generalizing q with
  | nil =>
    rw [innerLoop, if_pos ((ptr_eq_none_iff h).mpr rfl)]
    rfl
  | cons e lb ih =>
    obtain ⟨rfl, n, hn, -, hnext⟩ := chain_cons h
    rw [innerLoop, if_neg (Option.some_ne_none _)]
    by_cases hx : x = e.1
    · rw [if_pos (congrArg some hx), hx, nodes_cons, decide_eq_true List.mem_cons_self]
    · rw [if_neg (mt Option.some.inj hx), Mem.read_some hn, pure_bind, ih hnext, nodes_cons]
      simp only [List.mem_cons, hx, false_or]

/-- **The outer loop** comes to the first node that is in the other list. -/
theorem outerLoop_eq (ha : Chain m p (xs ++ zs) none) (hb : Chain m q lb none)
    (hxs : ∀ x ∈ nodes xs, x ∉ nodes lb) (hzs : ∀ z ∈ nodes zs, z ∈ nodes lb) :
    outerLoop m q p = pure (entry zs) := by
  induction xs generalizing p with
  | nil =>
    cases zs with
    | nil =>
      rw [outerLoop, if_pos ((ptr_eq_none_iff ha).mpr rfl)]
      rfl
    | cons e zs =>
      obtain ⟨rfl, -⟩ := chain_cons ha
      rw [outerLoop, if_neg (Option.some_ne_none _), innerLoop_eq e.1 hb, pure_bind,
        if_pos (decide_eq_true (hzs e.1 List.mem_cons_self))]
      rfl
  | cons e xs ih =>
    obtain ⟨rfl, n, hn, -, hnext⟩ := chain_cons ha
    rw [outerLoop, if_neg (Option.some_ne_none _), innerLoop_eq e.1 hb, pure_bind,
      if_neg (by simpa using hxs e.1 List.mem_cons_self), Mem.read_some hn, pure_bind]
    exact ih hnext fun x hx => hxs x (List.mem_cons_of_mem _ hx)

/-- `getIntersectionNodeBf` returns the first common node. -/
theorem getIntersectionNodeBf_eq (ha : Chain m p la none) (hb : Chain m q lb none)
    (h : Meets la lb xs ys zs) : getIntersectionNodeBf m p q = pure (entry zs) := by
  refine outerLoop_eq (h.left ▸ ha) hb h.left_apart fun z hz => ?_
  rw [h.right, nodes_append]
  exact List.mem_append_right _ hz

/-! ### The two pointers -/

theorem advance_none (other : Ptr) : advance m none other = pure other := by
  rw [advance, if_pos rfl]

/-- A pointer moves on. -/
theorem exists_advance (other : Ptr) (h : Chain m p (e :: l₁) none) :
    ∃ p', advance m p other = pure p' ∧ Chain m p' l₁ none := by
  obtain ⟨rfl, n, hn, -, hnext⟩ := chain_cons h
  rw [advance, if_neg (Option.some_ne_none _), Mem.read_some hn, pure_bind]
  exact ⟨_, rfl, hnext⟩

/-- A run that has been counted is a run of the loop. -/
theorem Iterates.meetLoop_eq (h : Iterates m l l2 k p q r) : meetLoop m l l2 p q = pure r := by
  induction h with
  | done r => rw [meetLoop, if_pos rfl]
  | turn hne hp hq _ ih => rw [meetLoop, if_neg hne, hp, pure_bind, hq, pure_bind, ih]

/-- The two pointers change places. -/
theorem Iterates.swap (h : Iterates m l l2 k p q r) : Iterates m l2 l k q p r := by
  induction h with
  | done r => exact .done r
  | turn hne hp hq _ ih => exact .turn hne.symm hq hp ih

/-- **Both pointers walk** over as many nodes, as long as they have different numbers of nodes
before them. -/
theorem Iterates.walk (hp : Chain m p (a ++ l₁) none) (hq : Chain m q (b ++ l₂) none)
    (hlen : a.length = b.length) (hne : l₁.length ≠ l₂.length)
    (h : ∀ p' q', Chain m p' l₁ none → Chain m q' l₂ none → Iterates m l l2 k p' q' r) :
    Iterates m l l2 (k + a.length) p q r := by
  induction a generalizing b p q with
  | nil =>
    obtain rfl := List.eq_nil_of_length_eq_zero hlen.symm
    exact h p q hp hq
  | cons d a ih =>
    obtain ⟨d', b, rfl⟩ := List.exists_cons_of_length_eq_add_one hlen.symm
    rw [List.length_cons, List.length_cons] at hlen
    obtain ⟨p', hp', hchain⟩ := exists_advance l2 hp
    obtain ⟨q', hq', hchain'⟩ := exists_advance l hq
    refine .turn (hp.ptr_ne hq ?_) hp' hq' (ih hchain hchain' (Nat.succ_injective hlen))
    rw [List.length_append, List.length_append, List.length_cons, List.length_cons]
    omega

/-- **A pointer at the end** turns to the other list. -/
theorem Iterates.restart (hq : Chain m q (e :: l₁) none)
    (h : ∀ q', Chain m q' l₁ none → Iterates m l l2 k l2 q' r) :
    Iterates m l l2 (k + 1) none q r := by
  obtain ⟨q', hq', hchain⟩ := exists_advance l hq
  exact .turn (by rw [hq.1]; exact (Option.some_ne_none _).symm) (advance_none l2) hq'
    (h q' hchain)

/-- **Pointers with as many nodes before them** come to the first common node together. -/
theorem iterates_aligned (hp : Chain m p (xs ++ zs) none) (hq : Chain m q (ys ++ zs) none)
    (hlen : xs.length = ys.length) (hdis : ∀ x ∈ nodes xs, x ∉ nodes ys) :
    Iterates m l l2 xs.length p q (entry zs) := by
  induction xs generalizing ys p q with
  | nil =>
    obtain rfl := List.eq_nil_of_length_eq_zero hlen.symm
    rw [chain_entry hp, chain_entry hq]
    exact .done _
  | cons d xs ih =>
    obtain ⟨d', ys, rfl⟩ := List.exists_cons_of_length_eq_add_one hlen.symm
    rw [List.length_cons, List.length_cons] at hlen
    obtain ⟨p', hp', hchain⟩ := exists_advance l2 hp
    obtain ⟨q', hq', hchain'⟩ := exists_advance l hq
    refine .turn ?_ hp' hq' (ih hchain hchain' (Nat.succ_injective hlen) fun x hx hmem => ?_)
    · rw [hp.1, hq.1]
      intro heq
      refine hdis d.1 List.mem_cons_self ?_
      rw [Option.some.inj heq]
      exact List.mem_cons_self
    · exact hdis x (List.mem_cons_of_mem _ hx) (List.mem_cons_of_mem _ hmem)

/-- A list is cut where a shorter one would end. -/
theorem exists_cut {α : Type} {l : List α} {n : ℕ} (h : n < l.length) :
    ∃ d a b, l = a ++ d :: b ∧ a.length = n :=
  ⟨l[n], l.take n, l.drop (n + 1), by rw [List.getElem_cons_drop, List.take_append_drop],
    List.length_take_of_le h.le⟩

/-- **The longer list** is the second one: the first pointer turns to it when the second one still
is on it, and the second one turns back when as many nodes are left as the first list has. -/
theorem iterates_of_lt (ha : Chain m p la none) (hb : Chain m q lb none)
    (h : Meets la lb xs ys zs) (hlt : xs.length < ys.length) :
    Iterates m p q (la.length + ys.length + 1) p q (entry zs) := by
  obtain ⟨c, b, b', hb', hblen⟩ : ∃ c b b', lb = b ++ c :: b' ∧ b.length = la.length :=
    exists_cut (by rw [h.left, h.right, List.length_append, List.length_append]; omega)
  obtain ⟨d, y, y', hy, hylen⟩ : ∃ d y y', ys = y ++ d :: y' ∧ y.length = b'.length :=
    exists_cut (by
      have hlen := congrArg List.length (hb'.symm.trans h.right)
      have hla := congrArg List.length h.left
      simp only [List.length_append, List.length_cons] at hlen hla
      omega)
  have hylen' : y'.length = xs.length := by
    have hlen := congrArg List.length (hb'.symm.trans h.right)
    have hla := congrArg List.length h.left
    have hys := congrArg List.length hy
    simp only [List.length_append, List.length_cons] at hlen hla hys
    omega
  have hlb : lb = y ++ (d :: (y' ++ zs)) := by
    rw [h.right, hy, List.append_assoc, List.cons_append]
  have hk : la.length + ys.length + 1 = xs.length + 1 + y.length + 1 + la.length := by
    rw [hy, List.length_append, List.length_cons, hylen']
    omega
  rw [hk]
  -- until the first pointer has walked its list
  refine .walk (show Chain m p (la ++ []) none by rwa [List.append_nil]) (hb' ▸ hb) hblen.symm
    (by simp) fun p' q' hp' hq' => ?_
  obtain rfl : p' = none := hp'
  refine .restart hq' fun q' hq' => ?_
  -- until the second one has
  refine .walk (hlb ▸ hb) (show Chain m q' (b' ++ []) none by rwa [List.append_nil]) hylen
    (by simp) fun p' q' hp' hq'' => ?_
  obtain rfl : q' = none := hq''
  refine (Iterates.restart hp' fun p' hp' => ?_).swap
  refine iterates_aligned (h.left ▸ ha) hp' hylen'.symm fun x hx hmem => h.left_apart x hx ?_
  rw [hlb, nodes_append, nodes_cons, nodes_append]
  simp [hmem]

/-- **The run of the loop**, and how many turns it takes at most. -/
theorem exists_iterates (ha : Chain m p la none) (hb : Chain m q lb none)
    (h : Meets la lb xs ys zs) :
    ∃ k ≤ la.length + lb.length + 1, Iterates m p q k p q (entry zs) := by
  have hla : la.length = xs.length + zs.length := by rw [h.left, List.length_append]
  have hlb : lb.length = ys.length + zs.length := by rw [h.right, List.length_append]
  rcases lt_trichotomy xs.length ys.length with hlt | heq | hgt
  · exact ⟨_, by omega, iterates_of_lt ha hb h hlt⟩
  · refine ⟨xs.length, by omega, iterates_aligned (h.left ▸ ha) (h.right ▸ hb) heq
      fun x hx hmem => h.left_apart x hx ?_⟩
    rw [h.right, nodes_append]
    exact List.mem_append_left _ hmem
  · exact ⟨_, by omega, (iterates_of_lt hb ha h.symm hgt).swap⟩

/-- **All three ways return the first common node**, or null if there is none, and the loop of the
first one ends after at most two turns more than both lists have nodes. -/
theorem getIntersectionNode_eq (ha : Chain m p la none) (hb : Chain m q lb none) :
    getIntersectionNode m p q = pure (firstCommon la lb) ∧
      getIntersectionNodeHs m p q = pure (firstCommon la lb) ∧
      getIntersectionNodeBf m p q = pure (firstCommon la lb) ∧
      firstCommon la lb = firstCommon lb la ∧
      ∃ k ≤ la.length + lb.length + 2, Iterates m p q k p q (firstCommon la lb) := by
  obtain ⟨xs, ys, zs, h⟩ := exists_meets ha hb
  obtain ⟨k, hk, hrun⟩ := exists_iterates ha hb h
  rw [h.firstCommon_eq, h.symm.firstCommon_eq]
  refine ⟨?_, getIntersectionNodeHs_eq ha hb h, getIntersectionNodeBf_eq ha hb h, rfl, k,
    hk.trans (Nat.le_succ _), hrun⟩
  rw [getIntersectionNode]
  split_ifs with hnull
  · have hzs : zs = [] := by
      rcases hnull with hp | hq
      · exact (List.append_eq_nil_iff.mp (h.left.symm.trans ((ptr_eq_none_iff ha).mp hp))).2
      · exact (List.append_eq_nil_iff.mp (h.right.symm.trans ((ptr_eq_none_iff hb).mp hq))).2
    rw [hzs]
    rfl
  · exact hrun.meetLoop_eq

/-- Three nodes: two lists of two nodes, of which the last one is in both. -/
def threeNodes : Mem ListNode :=
  Mem.set (Mem.set (Mem.set (fun _ => none) 1 ⟨7, some 3⟩) 2 ⟨7, some 3⟩) 3 ⟨8, none⟩

theorem getIntersectionNode_eq_three :
    getIntersectionNode threeNodes (some 1) (some 2) = pure (some 3) ∧
      getIntersectionNodeHs threeNodes (some 1) (some 2) = pure (some 3) ∧
      getIntersectionNodeBf threeNodes (some 1) (some 2) = pure (some 3) ∧
      some 3 = firstCommon [(2, 7), (3, 8)] [(1, 7), (3, 8)] ∧
      ∃ k ≤ 6, Iterates threeNodes (some 1) (some 2) k (some 1) (some 2) (some 3) :=
  getIntersectionNode_eq
    (show Chain threeNodes (some 1) [(1, 7), (3, 8)] none from
      ⟨rfl, _, rfl, rfl, rfl, _, rfl, rfl, rfl⟩)
    (show Chain threeNodes (some 2) [(2, 7), (3, 8)] none from
      ⟨rfl, _, rfl, rfl, rfl, _, rfl, rfl, rfl⟩)

end IntersectionNode

end Candcpp
