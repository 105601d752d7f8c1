import Candcpp.Algorithm.BinaryTree
import Candcpp.Algorithm.LinkedListSort

/-!
# A linked list in a binary tree

The two classes of `1367.cpp` that look for the values of a linked list on a path downwards in a
binary tree. `Solution2` tries every node as the beginning of the path, and goes down. `Solution`
keeps a map from each node to its parent, tries every node of the map as the end of the path, and
goes up while it takes the nodes of the list from a stack. The order in which it meets the entries
of the map is not determined, and a parameter here.

From a node upwards there is one way only, and the loop finds out whether the values of the list are
the last ones on the path from the root to that node (`Candcpp.IsSubPath.climbLoop_eq`). **Both
return whether the values of the list occur along a downward path**
(`Candcpp.IsSubPath.isSubPath_eq`).
-/

namespace Candcpp

open Cpp Shape

open LinkedList (ptrs chain_cons ptr_eq_none_iff)

namespace IsSubPath

/-! ### The code -/

namespace Solution2

/-- `Solution2::dfs(rt, head)`. -/
def dfs (tm : Mem TreeNode) (lm : Mem ListNode) (rt head : Ptr) : Exec Bool := do
  let +zeta dfs : type_of% dfs := by apply dfs
  if head = none then
    pure true
  else if rt = none then
    pure false
  else
    let t ← tm.read rt
    let n ← lm.read head
    if t.val ≠ n.val then
      pure false
    else if ← dfs tm lm t.left n.next then
      pure true
    else
      dfs tm lm t.right n.next
partial_fixpoint

/-- `Solution2::isSubPath(head, root)`. -/
def isSubPath (tm : Mem TreeNode) (lm : Mem ListNode) (head root : Ptr) : Exec Bool := do
  let +zeta isSubPath : type_of% isSubPath := by apply isSubPath
  if root = none then
    pure false
  else if ← dfs tm lm root head then
    pure true
  else
    let t ← tm.read root
    if ← isSubPath tm lm head t.left then
      pure true
    else
      isSubPath tm lm head t.right
partial_fixpoint

end Solution2

namespace Solution

/-- `Solution::dfs2(node, fa)`. -/
def dfs2 (tm : Mem TreeNode) (node : Ptr) (fa : Map Ptr Ptr) : Exec (Map Ptr Ptr) :=
  fillParents tm pure node fa

/-- The map `fa` of `func`. -/
def parents (tm : Mem TreeNode) (root : Ptr) : Exec (Map Ptr Ptr) := do
  let fa ← dfs2 tm root Map.empty
  pure (fa.insert root none)

/-- `while (p != nullptr)`: the stack. -/
def pushLoop (lm : Mem ListNode) (s : List Ptr) (p : Ptr) : Exec (List Ptr) := do
  let +zeta pushLoop : type_of% pushLoop := by apply pushLoop
  if p = none then
    pure s
  else
    let n ← lm.read p
    pushLoop lm (p :: s) n.next
partial_fixpoint

/-- `while (tn != nullptr && tn->val == st.top()->val)`: whether it returns, and the map. -/
def climbLoop (tm : Mem TreeNode) (lm : Mem ListNode) (fa : Map Ptr Ptr) (tn : Ptr)
    (st : List Ptr) : Exec (Bool × Map Ptr Ptr) := do
  let +zeta climbLoop : type_of% climbLoop := by apply climbLoop
  if tn = none then
    pure (false, fa)
  else
    let t ← tm.read tn
    match st with
    | [] => throw .emptyStack
    | top :: st =>
      let n ← lm.read top
      if t.val ≠ n.val then
        pure (false, fa)
      else if st = [] then
        pure (true, fa.touch tn none)
      else
        climbLoop tm lm (fa.touch tn none) (fa.index tn none) st
partial_fixpoint

/-- `for (auto iter = fa.cbegin(); iter != fa.cend(); ++iter)`, where `order` has the keys of the
entries that are still to come. -/
def entryLoop (tm : Mem TreeNode) (lm : Mem ListNode) (s : List Ptr) (fa : Map Ptr Ptr) :
    List Ptr → Exec Bool
  | [] => pure false
  | tn :: order => do
    let r ← climbLoop tm lm fa tn s
    if r.1 then
      pure true
    else
      entryLoop tm lm s r.2 order

/-- `Solution::func(head, root)`. -/
def func (order : List Ptr) (tm : Mem TreeNode) (lm : Mem ListNode) (head root : Ptr) :
    Exec Bool := do
  let fa ← parents tm root
  let s ← pushLoop lm [] head
  entryLoop tm lm s fa order

/-- `Solution::isSubPath(head, root)`. -/
def isSubPath (order : List Ptr) (tm : Mem TreeNode) (lm : Mem ListNode) (head root : Ptr) :
    Exec Bool := func order tm lm head root

end Solution

/-- **An order of the entries** of a map: each of its keys is met once. -/
structure Enumerates (order : List Ptr) (fa : Map Ptr Ptr) : Prop where
  nodup : order.Nodup
  mem_iff : ∀ k, k ∈ order ↔ fa k ≠ none

/-! ### From the nodes downwards -/

variable {tm : Mem TreeNode} {lm : Mem ListNode} {p head : Ptr} {fa : Map Ptr Ptr}
  {t : Shape (Addr × ℤ)} {d e : Addr × ℤ} {l q : List (Addr × ℤ)}

/-- The values of the list are those of a path from the root. -/
def Begins (t : Shape (Addr × ℤ)) (l : List (Addr × ℤ)) : Prop :=
  l = [] ∨ ∃ p y, PathTo t p y ∧ p.map Prod.snd = l.map Prod.snd

/-- The values of the list occur along a downward path. -/
def Occurs (t : Shape (Addr × ℤ)) (l : List (Addr × ℤ)) : Prop :=
  ∃ p, HasPath t p ∧ p.map Prod.snd = l.map Prod.snd

theorem begins_node {r s : Shape (Addr × ℤ)} : Begins (.node d r s) (e :: l) ↔
    d.2 = e.2 ∧ (Begins r l ∨ Begins s l) := by
  constructor
  · rintro (h | ⟨p, y, hp, hval⟩)
    · cases h
    rw [List.map_cons] at hval
    rcases pathTo_node.mp hp with ⟨rfl, -⟩ | ⟨p', rfl, hp'⟩
    · obtain ⟨he, hl⟩ := List.cons.inj hval
      exact ⟨he, .inl (.inl (List.map_eq_nil_iff.mp hl.symm))⟩
    · obtain ⟨he, hl⟩ := List.cons.inj hval
      exact ⟨he, hp'.imp (fun h => .inr ⟨p', y, h, hl⟩) fun h => .inr ⟨p', y, h, hl⟩⟩
  · rintro ⟨he, (rfl | ⟨p, y, hp, hval⟩) | (rfl | ⟨p, y, hp, hval⟩)⟩
    · exact .inr ⟨[d], d, .root, by rw [List.map_singleton, he, List.map_singleton]⟩
    · exact .inr ⟨d :: p, y, hp.left, by rw [List.map_cons, List.map_cons, he, hval]⟩
    · exact .inr ⟨[d], d, .root, by rw [List.map_singleton, he, List.map_singleton]⟩
    · exact .inr ⟨d :: p, y, hp.right, by rw [List.map_cons, List.map_cons, he, hval]⟩

/-- **`dfs`** finds out whether the list begins at a node. -/
theorem dfs_eq (ht : Rooted tm p t) (hl : Chain lm head l none) :
    ∃ b, Solution2.dfs tm lm p head = pure b ∧ (b = true ↔ Begins t l) := by
  induction t generalizing p head l with
  | nil =>
    have hp : p = none := ht
    rw [Solution2.dfs, if_pos hp]
    split_ifs with hhead
    · exact ⟨true, rfl, iff_of_true rfl (.inl ((ptr_eq_none_iff hl).mp hhead))⟩
    · refine ⟨false, rfl, iff_of_false Bool.false_ne_true ?_⟩
      rintro (h | ⟨p, y, hp, -⟩)
      · exact hhead ((ptr_eq_none_iff hl).mpr h)
      · cases hp
  | node d r s ihr ihs =>
    rw [Solution2.dfs]
    cases l with
    | nil =>
      rw [if_pos ((ptr_eq_none_iff hl).mpr rfl)]
      exact ⟨true, rfl, iff_of_true rfl (.inl rfl)⟩
    | cons e l =>
      obtain ⟨rfl, n, hn, hnv, hnext⟩ := chain_cons hl
      obtain ⟨rfl, a, ha, hav, hleft, hright⟩ := rooted_node ht
      rw [if_neg (Option.some_ne_none _), if_neg (Option.some_ne_none _), Mem.read_some ha,
        pure_bind, Mem.read_some hn, pure_bind, hav, hnv, begins_node]
      by_cases hval : d.2 = e.2
      · obtain ⟨b, hrun, hb⟩ := ihr hleft hnext
        obtain ⟨c, hrun', hc⟩ := ihs hright hnext
        rw [if_neg (not_not.mpr hval), hrun, pure_bind, hrun', and_iff_right hval, ← hb, ← hc]
        cases b
        · exact ⟨c, rfl, by simp⟩
        · exact ⟨true, rfl, by simp⟩
      · rw [if_pos hval]
        exact ⟨false, rfl, iff_of_false Bool.false_ne_true fun h => hval h.1⟩

/-- The values of a list with nodes occur from the root on, or in one of the subtrees. -/
theorem occurs_node {r s : Shape (Addr × ℤ)} (hne : l ≠ []) : Occurs (.node d r s) l ↔
    Begins (.node d r s) l ∨ Occurs r l ∨ Occurs s l := by
  constructor
  · rintro ⟨p, hp, hval⟩
    cases hp with
    | here hp => exact .inl (.inr ⟨p, _, hp, hval⟩)
    | left hp => exact .inr (.inl ⟨p, hp, hval⟩)
    | right hp => exact .inr (.inr ⟨p, hp, hval⟩)
  · rintro ((h | ⟨p, y, hp, hval⟩) | ⟨p, hp, hval⟩ | ⟨p, hp, hval⟩)
    · exact absurd h hne
    · exact ⟨p, .here hp, hval⟩
    · exact ⟨p, hp.left, hval⟩
    · exact ⟨p, hp.right, hval⟩

/-- **`Solution2::isSubPath`** finds out whether the list occurs in the tree. -/
theorem isSubPath_solution2_eq (ht : Rooted tm p t) (hl : Chain lm head l none) (hne : l ≠ []) :
    ∃ b, Solution2.isSubPath tm lm head p = pure b ∧ (b = true ↔ Occurs t l) := by
  induction t generalizing p with
  | nil =>
    have hp : p = none := ht
    rw [Solution2.isSubPath, if_pos hp]
    refine ⟨false, rfl, iff_of_false Bool.false_ne_true ?_⟩
    rintro ⟨p, ⟨⟨⟩⟩, -⟩
  | node d r s ihr ihs =>
    obtain ⟨b, hrun, hb⟩ := dfs_eq ht hl
    obtain ⟨rfl, a, ha, -, hleft, hright⟩ := rooted_node ht
    obtain ⟨b₁, hrun₁, hb₁⟩ := ihr hleft
    obtain ⟨b₂, hrun₂, hb₂⟩ := ihs hright
    rw [Solution2.isSubPath, if_neg (Option.some_ne_none _), hrun, pure_bind, Mem.read_some ha,
      pure_bind, hrun₁, pure_bind, hrun₂, occurs_node hne, ← hb, ← hb₁, ← hb₂]
    cases b
    · cases b₁
      · exact ⟨b₂, rfl, by simp⟩
      · exact ⟨true, rfl, by simp⟩
    · exact ⟨true, rfl, by simp⟩

/-! ### From the nodes upwards -/

/-- The loop puts the nodes of the list on the stack. -/
theorem pushLoop_eq (s : List Ptr) (hl : Chain lm head l none) :
    Solution.pushLoop lm s head = pure ((ptrs l).reverse ++ s) := by
  induction l generalizing head s with
  | nil =>
    rw [Solution.pushLoop, if_pos ((ptr_eq_none_iff hl).mpr rfl)]
    rfl
  | cons e l ih =>
    obtain ⟨rfl, n, hn, -, hnext⟩ := chain_cons hl
    rw [Solution.pushLoop, if_neg (Option.some_ne_none _), Mem.read_some hn, pure_bind,
      ih _ hnext, ptrs, ptrs, List.map_cons, List.reverse_cons, List.append_assoc]
    rfl

/-- The keys of different nodes are different. -/
theorem nodup_addressOf (hnd : (l.map Prod.fst).Nodup) : (l.map addressOf).Nodup := by
  have hcomp := hnd.map (Option.some_injective Addr)
  rwa [List.map_map] at hcomp

/-- **The map** leads upwards from every node of the tree, and has no other entries. -/
theorem parents_eq (ht : Rooted tm p t) (hne : t ≠ .nil)
    (hnd : ((labels t).map Prod.fst).Nodup) : ∃ fa, Solution.parents tm p = pure fa ∧
      Hung addressOf fa none t ∧ ∀ k, fa k ≠ none ↔ ∃ e ∈ labels t, k = some e.1 := by
  cases t with
  | nil => exact absurd rfl hne
  | node e r s =>
    have hkeys := nodup_addressOf hnd
    obtain ⟨fa, hrun, hl, hr, hframe⟩ := fillParents_eq ht (fun d _ => rfl) hkeys Map.empty
    rw [Solution.parents, Solution.dfs2, hrun, pure_bind]
    obtain ⟨rfl, -⟩ := ht
    rw [labels, List.map_cons, List.nodup_cons] at hkeys
    have hother : ∀ d ∈ labels r ++ labels s, addressOf d ≠ addressOf e := fun d hd heq =>
      hkeys.1 (heq ▸ List.mem_map_of_mem hd)
    refine ⟨fa.insert (some e.1) none, rfl, ⟨Map.insert_self _ _ _, hl.congr fun d hd => ?_,
      hr.congr fun d hd => ?_⟩, fun k => ?_⟩
    · exact Map.insert_of_ne _ _ (hother d (List.mem_append_left _ hd))
    · exact Map.insert_of_ne _ _ (hother d (List.mem_append_right _ hd))
    · by_cases hk : k = some e.1
      · rw [hk, Map.insert_self]
        exact iff_of_true (Option.some_ne_none _) ⟨e, List.mem_cons_self, rfl⟩
      · rw [Map.insert_of_ne _ _ hk, labels, List.exists_mem_cons_iff, or_iff_right hk]
        constructor
        · intro hentry
          by_contra hno
          refine hentry (hframe k fun d hd heq => hno ⟨d, hd, heq.symm⟩)
        · rintro ⟨d, hd, rfl⟩
          obtain ⟨v, hv⟩ := (List.mem_append.mp hd).elim hl.exists_entry hr.exists_entry
          exact fun hnone => Option.some_ne_none v (hv.symm.trans hnone)

/-- The last values of two lists. -/
theorem suffix_concat_concat_iff {α : Type} {xs ys : List α} {x y : α} :
    xs ++ [x] <:+ ys ++ [y] ↔ y = x ∧ xs <:+ ys := by
  rw [List.suffix_concat_iff]
  constructor
  · rintro (h | ⟨t, ht, hsuf⟩)
    · exact absurd h (List.append_ne_nil_of_right_ne_nil _ (List.cons_ne_nil _ _))
    · obtain ⟨rfl, hxy⟩ := List.append_inj' ht rfl
      exact ⟨(List.cons.inj hxy).1.symm, hsuf⟩
  · rintro ⟨rfl, hsuf⟩
    exact .inr ⟨xs, rfl, hsuf⟩

/-- **The loop** finds out whether the values of the list are the last ones on the path. -/
theorem climbLoop_eq (ht : Rooted tm p t) (hfa : Hung addressOf fa none t)
    (hl : ∀ e ∈ l, ∃ n : ListNode, lm e.1 = some n ∧ n.val = e.2) (hne : l ≠ [])
    (hq : q = [] ∨ ∃ y, PathTo t q y) :
    ∃ b, Solution.climbLoop tm lm fa (q.getLast?.map Prod.fst) (ptrs l).reverse = pure (b, fa) ∧
      (b = true ↔ l.map Prod.snd <:+ q.map Prod.snd) := by
  induction l using List.reverseRecOn generalizing q with
  | nil => exact absurd rfl hne
  | append_singleton l e ih =>
    have hstack : (ptrs (l ++ [e])).reverse = some e.1 :: (ptrs l).reverse := by
      rw [ptrs, List.map_append, List.reverse_append]
      rfl
    rw [Solution.climbLoop, hstack, List.map_append, List.map_singleton]
    rcases hq with rfl | ⟨y, hq⟩
    · -- above the root
      rw [List.getLast?_nil, Option.map_none, if_pos rfl]
      refine ⟨false, rfl, iff_of_false Bool.false_ne_true fun h => ?_⟩
      exact List.append_ne_nil_of_right_ne_nil _ (List.cons_ne_nil _ _) (List.suffix_nil.mp h)
    · obtain ⟨q, rfl⟩ := hq.exists_init
      obtain ⟨a, ha, hav⟩ := ht.exists_node hq.end_mem
      have hav' : a.val = y.2 := hav
      obtain ⟨n, hn, hnv⟩ := hl e (List.mem_append_right _ (List.mem_singleton.mpr rfl))
      have hup : fa (some y.1) = some (q.getLast?.map Prod.fst) := hfa.climb hq
      rw [List.getLast?_concat, Option.map_some, if_neg (Option.some_ne_none _), Mem.read_some ha,
        pure_bind]
      dsimp only
      rw [Mem.read_some hn, pure_bind, hav', hnv, Map.touch_of_eq_some hup,
        Map.index_of_eq_some hup, List.map_append, List.map_singleton, suffix_concat_concat_iff]
      by_cases hval : y.2 = e.2
      · rw [if_neg (not_not.mpr hval), and_iff_right hval]
        cases l with
        | nil =>
          rw [if_pos (show (ptrs []).reverse = [] from rfl)]
          exact ⟨true, rfl, iff_of_true rfl List.nil_suffix⟩
        | cons d l =>
          rw [if_neg (by simp [ptrs])]
          exact ih (fun c hc => hl c (List.mem_append_left _ hc)) (List.cons_ne_nil d l) hq.init
      · rw [if_pos hval]
        exact ⟨false, rfl, iff_of_false Bool.false_ne_true fun h => hval h.1⟩

/-- The values of the list are the last ones on a path to the node with the key `k`. -/
def EndsAt (t : Shape (Addr × ℤ)) (l : List (Addr × ℤ)) (k : Ptr) : Prop :=
  ∃ q y, PathTo t q y ∧ k = some y.1 ∧ l.map Prod.snd <:+ q.map Prod.snd

/-- **The loop over the entries** tries every node. -/
theorem entryLoop_eq {order : List Ptr} (ht : Rooted tm p t)
    (hnd : ((labels t).map Prod.fst).Nodup) (hfa : Hung addressOf fa none t)
    (hl : ∀ e ∈ l, ∃ n : ListNode, lm e.1 = some n ∧ n.val = e.2) (hne : l ≠ [])
    (horder : ∀ k ∈ order, ∃ e ∈ labels t, k = some e.1) :
    ∃ b, Solution.entryLoop tm lm (ptrs l).reverse fa order = pure b ∧
      (b = true ↔ ∃ k ∈ order, EndsAt t l k) := by
  induction order with
  | nil => exact ⟨false, rfl, by simp⟩
  | cons k order ih =>
    obtain ⟨c, hrest, hc⟩ := ih fun k hk => horder k (List.mem_cons_of_mem _ hk)
    obtain ⟨e, he, rfl⟩ := horder k List.mem_cons_self
    obtain ⟨q, hq⟩ := exists_pathTo he
    obtain ⟨b, hrun, hb⟩ := climbLoop_eq ht hfa hl hne (.inr ⟨e, hq⟩)
    -- there is one path to a node
    have hends : EndsAt t l (some e.1) ↔ b = true := by
      rw [hb]
      constructor
      · rintro ⟨q', y, hq', hey, hsuf⟩
        obtain rfl := ht.label_eq he hq'.end_mem (Option.some.inj hey)
        rwa [hq.unique (List.Nodup.of_map _ hnd) hq']
      · exact fun hsuf => ⟨q, e, hq, rfl, hsuf⟩
    obtain ⟨q, rfl⟩ := hq.exists_init
    rw [List.getLast?_concat, Option.map_some] at hrun
    rw [Solution.entryLoop, hrun, pure_bind, List.exists_mem_cons_iff, hends, ← hc]
    cases b
    · exact ⟨c, hrest, by simp⟩
    · exact ⟨true, rfl, by simp⟩

/-- What occurs in a tree are the last values on the path to some node. -/
theorem occurs_iff (hne : l ≠ []) : Occurs t l ↔ ∃ e ∈ labels t, EndsAt t l (some e.1) := by
  constructor
  · rintro ⟨p, hp, hval⟩
    obtain ⟨-, q, y, hq⟩ := hasPath_iff.mp hp
    exact ⟨y, hq.end_mem, q ++ p, y, hq, rfl, hval ▸ ((List.suffix_append q p).map Prod.snd)⟩
  · rintro ⟨-, -, q, y, hq, -, hsuf⟩
    obtain ⟨ys, hys⟩ := hsuf
    obtain ⟨q₁, q₂, rfl, -, hval⟩ := List.map_eq_append_iff.mp hys.symm
    refine ⟨q₂, hasPath_iff.mpr ⟨?_, q₁, y, hq⟩, hval⟩
    rintro rfl
    exact hne (List.map_eq_nil_iff.mp hval.symm)

/-- **Both look for the list on a path**: for every list and tree with nodes they return whether the
values of the list are those of consecutive nodes on a path downwards, in whatever order the entries
of the map are met. -/
theorem isSubPath_eq (ht : Rooted tm p t) (hnd : ((labels t).map Prod.fst).Nodup)
    (htne : t ≠ .nil) (hl : Chain lm head l none) (hne : l ≠ []) :
    ∃ b, (b = true ↔ ∃ q, HasPath t q ∧ q.map Prod.snd = l.map Prod.snd) ∧
      Solution2.isSubPath tm lm head p = pure b ∧
      ∃ fa, Solution.parents tm p = pure fa ∧ (∃ order, Enumerates order fa) ∧
        ∀ order, Enumerates order fa → Solution.isSubPath order tm lm head p = pure b := by
  obtain ⟨b, hrun, hb⟩ := isSubPath_solution2_eq ht hl hne
  obtain ⟨fa, hparents, hfa, hkeys⟩ := parents_eq ht htne hnd
  have hkey : ((labels t).map addressOf).Nodup := nodup_addressOf hnd
  refine ⟨b, hb, hrun, fa, hparents, ⟨_, hkey, fun k => ?_⟩, fun order horder => ?_⟩
  · rw [hkeys, List.mem_map]
    exact exists_congr fun e => and_congr_right fun _ => eq_comm
  obtain ⟨c, hrun', hc⟩ := entryLoop_eq ht hnd hfa (fun e he => hl.exists_node he) hne
    fun k hk => (hkeys k).mp ((horder.mem_iff k).mp hk)
  have hsame : c = true ↔ b = true := by
    rw [hc, hb]
    refine Iff.trans ?_ (occurs_iff hne).symm
    constructor
    · rintro ⟨k, hk, h⟩
      obtain ⟨e, he, rfl⟩ := (hkeys k).mp ((horder.mem_iff k).mp hk)
      exact ⟨e, he, h⟩
    · rintro ⟨e, he, h⟩
      exact ⟨some e.1, (horder.mem_iff _).mpr ((hkeys _).mpr ⟨e, he, rfl⟩), h⟩
  have hpush := pushLoop_eq [] hl
  rw [List.append_nil] at hpush
  rw [Solution.isSubPath, Solution.func, hparents, pure_bind, hpush, pure_bind, hrun',
    Bool.eq_iff_iff.mpr hsame]

/-- A root with a right child. -/
def twoTree : Mem TreeNode :=
  Mem.set (Mem.set (fun _ => none) 1 ⟨4, none, some 2⟩) 2 ⟨2, none, none⟩

/-- A list of two nodes. -/
def twoList : Mem ListNode := Mem.set (Mem.set (fun _ => none) 1 ⟨4, some 2⟩) 2 ⟨2, none⟩

theorem isSubPath_eq_two :
    ∃ b, (b = true ↔ ∃ q, HasPath (.node (1, 4) .nil (.node (2, 2) .nil .nil)) q ∧
        q.map Prod.snd = [(1, 4), (2, (2 : ℤ))].map Prod.snd) ∧
      Solution2.isSubPath twoTree twoList (some 1) (some 1) = pure b ∧
      ∃ fa, Solution.parents twoTree (some 1) = pure fa ∧ (∃ order, Enumerates order fa) ∧
        ∀ order, Enumerates order fa →
          Solution.isSubPath order twoTree twoList (some 1) (some 1) = pure b :=
  isSubPath_eq
    (show Rooted twoTree (some 1) (.node (1, 4) .nil (.node (2, 2) .nil .nil)) from
      ⟨rfl, _, rfl, rfl, rfl, rfl, _, rfl, rfl, rfl, rfl⟩)
    (by decide) nofun
    (show Chain twoList (some 1) [(1, 4), (2, 2)] none from
      ⟨rfl, _, rfl, rfl, rfl, _, rfl, rfl, rfl⟩)
    (List.cons_ne_nil _ _)

end IsSubPath

end Candcpp
