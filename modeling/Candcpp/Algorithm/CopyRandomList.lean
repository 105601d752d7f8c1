import Candcpp.Cpp.Map
import Candcpp.Cpp.Sll

/-!
# Copying a list with random pointers

The program of `LCR154.cpp`. The nodes of a list have a second pointer, which is null or leads to
any node of the list. `copyRandomList` makes a new node for each of them, links the new nodes one
behind the other, and keeps in a map which node is made for which. Then it goes through both lists
again, and looks up in the map where a random pointer of the copy leads to. At the null pointer
there is no entry, so that one is made, whose value is null.

When the random pointers are looked up the map has an entry for every node
(`Candcpp.CopyRandomList.nodeLoop_eq`). **The copy is the same list on new nodes**, and nothing else
changes (`Candcpp.CopyRandomList.copyRandomList_isCopy`).

The node behind which the first one is linked is a local object, whose address is a parameter, as
are the addresses that `new` returns.
-/

namespace Candcpp

open Cpp

namespace CopyRandomList

/-! ### The code -/

/-- `class Node`. -/
structure Node where
  val : ℤ
  next : Ptr
  random : Ptr
  deriving DecidableEq, Repr

instance : SLink Node ℤ where
  val := Node.val
  next := Node.next
  setNext := fun p n => { n with next := p }
  val_setNext := fun _ _ => rfl
  next_setNext := fun _ _ => rfl

/-- `Node(_val)`. -/
def newNode (val : ℤ) : Node where
  val := val
  next := none
  random := none

/-- The first `while (p)`, where `new` returns `fresh i` in the turn `i`, which leaves behind
`mapping`. -/
def nodeLoop (fresh : ℕ → Addr) (i : ℕ) (m : Mem Node) (mapping : Map Ptr Ptr) (p prev : Ptr) :
    Exec (Mem Node × Map Ptr Ptr) := do
  let +zeta nodeLoop : type_of% nodeLoop := by apply nodeLoop
  if p = none then
    pure (m, mapping)
  else
    let n ← m.read p
    let q := some (fresh i)
    let m := m.set (fresh i) (newNode n.val)
    let mapping := mapping.insert p q
    let n ← m.read p
    let m ← m.modify prev (SLink.setNext q)
    nodeLoop fresh (i + 1) m mapping n.next q
partial_fixpoint

/-- The second `while (p)`. -/
def randomLoop (m : Mem Node) (mapping : Map Ptr Ptr) (p q : Ptr) : Exec (Mem Node) := do
  let +zeta randomLoop : type_of% randomLoop := by apply randomLoop
  if p = none then
    pure m
  else
    let n ← m.read p
    let random := mapping.index n.random none
    let mapping := mapping.touch n.random none
    let m ← m.modify q fun c => { c with random := random }
    let c ← m.read q
    let n ← m.read p
    randomLoop m mapping n.next c.next
partial_fixpoint

/-- `copyRandomList(head)`, with `res` at the address `res`. -/
def copyRandomList (fresh : ℕ → Addr) (res : Addr) (m : Mem Node) (head : Ptr) :
    Exec (Ptr × Mem Node) := do
  let m := m.set res (newNode 0)
  let s ← nodeLoop fresh 0 m Map.empty head (some res)
  let r ← s.1.read (some res)
  let m ← randomLoop s.1 s.2 head r.next
  let r ← m.read (some res)
  pure (r.next, m.clear res)

/-! ### Copies -/

/-- **The list from `head'` on is a copy**: for each of the nodes there is a new one, with the same
value, whose pointers lead to the copies of what the pointers of the node lead to. -/
structure IsCopy (m m' : Mem Node) (nodes : List Addr) (copy : Addr → Addr) (head head' : Ptr) :
    Prop where
  head_eq : head' = head.map copy
  node : ∀ a ∈ nodes, ∃ n, m a = some n ∧
    m' (copy a) = some { val := n.val, next := n.next.map copy, random := n.random.map copy }
  /-- Different nodes have different copies. -/
  injective : ∀ a ∈ nodes, ∀ b ∈ nodes, copy a = copy b → a = b
  /-- A copy was no object before, so that it is none of the nodes. -/
  isNew : ∀ a ∈ nodes, m (copy a) = none
  /-- The nodes are as before. -/
  same : ∀ a ∈ nodes, m' a = m a
  /-- Nothing but the copies has changed. -/
  frame : ∀ b, (∀ a ∈ nodes, b ≠ copy a) → m' b = m b

/-- **The addresses of new objects**: the local one, and those that `new` returns. -/
structure NewAddrs (m : Mem Node) (res : Addr) (fresh : ℕ → Addr) : Prop where
  res_free : m res = none
  free : ∀ i, m (fresh i) = none
  ne_res : ∀ i, fresh i ≠ res
  injective : Function.Injective fresh

variable {m : Mem Node} {p q head : Ptr} {l l' : List (Addr × ℤ)} {e : Addr × ℤ}
  {copy : Addr → Addr} {fresh : ℕ → Addr} {res : Addr} {i : ℕ}

/-- The copies of nodes, with their values. -/
def copies (copy : Addr → Addr) (l : List (Addr × ℤ)) : List (Addr × ℤ) :=
  l.map fun e => (copy e.1, e.2)

/-- The pointer to the first node. -/
theorem entry_eq (h : Chain m p l none) : p = l.head?.map Prod.fst := by
  cases l with
  | nil => exact h
  | cons e l => exact h.1

theorem entry_copies (copy : Addr → Addr) (l : List (Addr × ℤ)) :
    (copies copy l).head?.map Prod.fst = (l.head?.map Prod.fst).map copy := by
  cases l with
  | nil => rfl
  | cons e l => rfl

/-! ### The new nodes -/

/-- A turn of the first loop. -/
theorem nodeLoop_some (mapping : Map Ptr Ptr) {a b : Addr} {n c : Node} (hn : m a = some n)
    (hc : m b = some c) (hfree : m (fresh i) = none) :
    nodeLoop fresh i m mapping (some a) (some b) =
      nodeLoop fresh (i + 1)
        ((m.set (fresh i) (newNode n.val)).set b (SLink.setNext (some (fresh i)) c))
        (mapping.insert (some a) (some (fresh i))) n.next (some (fresh i)) := by
  have hkept : ∀ {x : Addr} {d : Node}, m x = some d →
      m.set (fresh i) (newNode n.val) x = some d := by
    intro x d hx
    rw [Mem.set_of_ne, hx]
    rintro rfl
    exact Option.some_ne_none d (hx.symm.trans hfree)
  rw [nodeLoop, if_neg (Option.some_ne_none a), Mem.read_some hn, pure_bind]
  dsimp only
  rw [Mem.read_some (hkept hn), pure_bind, Mem.modify_some (hkept hc), pure_bind]

/-- **The first loop** makes a copy of each node, links the copies behind the last node so far, and
enters them into the map. -/
theorem nodeLoop_eq (mapping : Map Ptr Ptr) (hl : Chain m p l none)
    (hq : Chain m q (l' ++ [e]) none)
    (hcopy : ∀ j d, l[j]? = some d → copy d.1 = fresh (i + j))
    (hfree : ∀ d ∈ l, m (copy d.1) = none) (hnd : (l.map fun d => copy d.1).Nodup)
    (he : ∀ d ∈ l, d.1 ≠ e.1) : ∃ m' mapping',
      nodeLoop fresh i m mapping p (some e.1) = pure (m', mapping') ∧
      Chain m' q (l' ++ e :: copies copy l) none ∧
      (∀ d ∈ l, mapping'.index (some d.1) none = some (copy d.1)) ∧
      (∀ k, (∀ d ∈ l, k ≠ some d.1) → mapping'.index k none = mapping.index k none) ∧
      ∀ a, a ≠ e.1 → (∀ d ∈ l, a ≠ copy d.1) → m' a = m a := by
  induction l generalizing m p i l' e mapping with
  | nil =>
    have hp : p = none := hl
    rw [nodeLoop, if_pos hp]
    exact ⟨m, mapping, rfl, hq, by simp, fun _ _ => rfl, fun _ _ _ => rfl⟩
  | cons d l ih =>
    have hnodup := hl.nodup
    obtain ⟨rfl, n, hn, hv, hnext⟩ := hl
    obtain ⟨ne, hne, -, hlast⟩ := hq.node
    have hx : copy d.1 = fresh i := hcopy 0 d rfl
    have hxfree : m (fresh i) = none := hx ▸ hfree d List.mem_cons_self
    -- the new node, and the node behind which it is linked
    have hlast' : SLink.next (newNode n.val) = SLink.next ne := hlast.symm
    have hchain := hq.insertAfter hne hxfree hlast'
    rw [List.append_cons] at hchain
    set m₁ := m.set (fresh i) (newNode n.val)
    have ho₁ : ∀ a, a ≠ fresh i → m₁ a = m a := fun a ha => Mem.set_of_ne _ _ ha
    set m₂ := m₁.set e.1 (SLink.setNext (some (fresh i)) ne)
    have ho₂ : ∀ a, a ≠ e.1 → a ≠ fresh i → m₂ a = m a := fun a hae ha =>
      (Mem.set_of_ne _ _ hae).trans (ho₁ a ha)
    have hrest : ∀ b ∈ l, m₂ b.1 = m b.1 := fun b hb =>
      ho₂ b.1 (he b (List.mem_cons_of_mem d hb)) (hnext.ne_of_mem hb hxfree)
    have hfree₂ : ∀ b ∈ l, m₂ (copy b.1) = none := by
      intro b hb
      have hb' := hfree b (List.mem_cons_of_mem d hb)
      rw [ho₂, hb']
      · rintro heq
        exact Option.some_ne_none ne (hne.symm.trans (heq ▸ hb'))
      · rw [← hx]
        exact fun heq => (List.nodup_cons.mp hnd).1 (List.mem_map.mpr ⟨b, hb, heq⟩)
    obtain ⟨m', mapping', hrun, hchain', hmap, hmap', hframe⟩ :=
      ih (mapping.insert (some d.1) (some (fresh i))) (i := i + 1)
        (hnext.congr hrest) hchain
        (fun j b hb => by rw [hcopy (j + 1) b hb, Nat.add_right_comm, Nat.add_assoc]) hfree₂
        (List.nodup_cons.mp hnd).2 (fun b hb => hnext.ne_of_mem hb hxfree)
    have hd : ∀ b ∈ l, some d.1 ≠ some b.1 := fun b hb heq => by
      rw [List.map_cons, List.nodup_cons] at hnodup
      exact hnodup.1 (Option.some.inj heq ▸ List.mem_map_of_mem hb)
    refine ⟨m', mapping', ?_, ?_, ?_, ?_, ?_⟩
    · rw [nodeLoop_some mapping hn hne hxfree]
      exact hrun
    · have hval : ((fresh i, SLink.val (newNode n.val)) : Addr × ℤ) = (copy d.1, d.2) := by
        rw [hx, ← hv]
        rfl
      rw [hval, List.append_assoc] at hchain'
      exact hchain'
    · intro b hb
      rcases List.mem_cons.mp hb with rfl | hb
      · rw [hmap' _ hd, Map.index_insert_self, hx]
      · exact hmap b hb
    · intro k hk
      rw [hmap' k fun b hb => hk b (List.mem_cons_of_mem d hb),
        Map.index_insert_of_ne _ _ _ (hk d List.mem_cons_self)]
    · intro a hae ha
      have hai : a ≠ fresh i := hx ▸ ha d List.mem_cons_self
      rw [hframe a hai fun b hb => ha b (List.mem_cons_of_mem d hb), ho₂ a hae hai]

/-! ### The random pointers -/

/-- A turn of the second loop, at a node and its copy. -/
theorem randomLoop_some (mapping : Map Ptr Ptr) {a b : Addr} {n c : Node} (hn : m a = some n)
    (hc : m b = some c) (hne : a ≠ b) :
    randomLoop m mapping (some a) (some b) =
      randomLoop (m.set b { c with random := mapping.index n.random none })
        (mapping.touch n.random none) n.next c.next := by
  have hn' : m.set b { c with random := mapping.index n.random none } a = some n :=
    (Mem.set_of_ne _ _ hne).trans hn
  rw [randomLoop, if_neg (Option.some_ne_none a), Mem.read_some hn, pure_bind]
  dsimp only
  rw [Mem.modify_some hc, pure_bind, Mem.read_some (Mem.set_self _ _ _), pure_bind,
    Mem.read_some hn', pure_bind]

/-- **The second loop** lets the random pointer of each copy lead to the copy of what the random
pointer of the node leads to. -/
theorem randomLoop_eq (mapping : Map Ptr Ptr) (hl : Chain m p l none)
    (hq : Chain m q (copies copy l) none)
    (hne : ∀ d ∈ l, ∀ b ∈ l, d.1 ≠ copy b.1)
    (hmap : ∀ d ∈ l, ∀ n, m d.1 = some n → mapping.index n.random none = n.random.map copy) :
    ∃ m', randomLoop m mapping p q = pure m' ∧
      (∀ d ∈ l, ∀ n c, m d.1 = some n → m (copy d.1) = some c →
        m' (copy d.1) = some { c with random := n.random.map copy }) ∧
      ∀ a, (∀ d ∈ l, a ≠ copy d.1) → m' a = m a := by
  induction l generalizing m p q mapping with
  | nil =>
    have hp : p = none := hl
    rw [randomLoop, if_pos hp]
    exact ⟨m, rfl, by simp, fun _ _ => rfl⟩
  | cons d l ih =>
    have hnodup := hq.nodup
    obtain ⟨rfl, n, hn, -, hnext⟩ := hl
    obtain ⟨rfl, c, hc, -, hcnext⟩ := hq
    have hrandom := hmap d List.mem_cons_self n hn
    -- the copy is written, and no other node
    have hothers : ∀ b ∈ l, copy b.1 ≠ copy d.1 := by
      intro b hb heq
      rw [copies, List.map_cons, List.map_cons, List.nodup_cons] at hnodup
      exact hnodup.1 (List.mem_map.mpr ⟨_, List.mem_map_of_mem hb, heq⟩)
    set m₁ := m.set (copy d.1) { c with random := n.random.map copy }
    have ho₁ : ∀ a, a ≠ copy d.1 → m₁ a = m a := fun a ha => Mem.set_of_ne _ _ ha
    have hc₁ : m₁ (copy d.1) = some { c with random := n.random.map copy } := Mem.set_self _ _ _
    have hnodes : ∀ b ∈ l, m₁ b.1 = m b.1 := fun b hb =>
      ho₁ b.1 (hne b (List.mem_cons_of_mem d hb) d List.mem_cons_self)
    have hcopies : ∀ b ∈ l, m₁ (copy b.1) = m (copy b.1) := fun b hb => ho₁ _ (hothers b hb)
    have hcnext₁ : Chain m₁ c.next (copies copy l) none := by
      refine hcnext.congr fun b hb => ?_
      obtain ⟨b', hb', rfl⟩ := List.mem_map.mp hb
      exact hcopies b' hb'
    obtain ⟨m', hrun, hset, hframe⟩ := ih (mapping.touch n.random none)
      (hnext.congr hnodes) hcnext₁
      (fun b hb b' hb' => hne b (List.mem_cons_of_mem d hb) b' (List.mem_cons_of_mem d hb'))
      (fun b hb n' hn' => by
        rw [Map.index_touch]
        exact hmap b (List.mem_cons_of_mem d hb) n' (hnodes b hb ▸ hn'))
    refine ⟨m', ?_, ?_, fun a ha => ?_⟩
    · rw [randomLoop_some mapping hn hc (hne d List.mem_cons_self d List.mem_cons_self), hrandom]
      exact hrun
    · intro b hb n' c' hn' hc'
      rcases List.mem_cons.mp hb with rfl | hb
      · obtain rfl := Option.some.inj (hn.symm.trans hn')
        obtain rfl := Option.some.inj (hc.symm.trans hc')
        rw [hframe _ fun b' hb' => (hothers b' hb').symm, hc₁]
      · exact hset b hb n' c' ((hnodes b hb).trans hn') ((hcopies b hb).trans hc')
    · rw [hframe a fun b hb => ha b (List.mem_cons_of_mem d hb), ho₁ a (ha d List.mem_cons_self)]

/-! ### The copy -/

/-- The copy of the node at the position `i` is what `new` returns in the turn `i`. -/
def copyAt (fresh : ℕ → Addr) (nodes : List Addr) (a : Addr) : Addr := fresh (nodes.idxOf a)

theorem copyAt_of_getElem? {nodes : List Addr} (hnd : nodes.Nodup) {j : ℕ} {a : Addr}
    (hj : nodes[j]? = some a) : copyAt fresh nodes a = fresh j := by
  obtain ⟨hlt, rfl⟩ := List.getElem?_eq_some_iff.mp hj
  rw [copyAt, hnd.idxOf_getElem]

/-- Different nodes have different copies. -/
theorem copyAt_inj {nodes : List Addr} {a b : Addr} (hfresh : Function.Injective fresh)
    (ha : a ∈ nodes) (h : copyAt fresh nodes a = copyAt fresh nodes b) : a = b :=
  (List.idxOf_inj ha).mp (hfresh h)

/-- The copy of a node, before the random pointers are looked up. -/
theorem copy_linked {m' : Mem Node} {r : Ptr} {n : Node} (hl : Chain m p l none)
    (hr : Chain m' r (copies copy l) none) (he : e ∈ l) (hn : m e.1 = some n) :
    ∃ c, m' (copy e.1) = some c ∧ c.val = n.val ∧ c.next = n.next.map copy := by
  obtain ⟨l₁, l₂, rfl⟩ := List.append_of_mem he
  obtain ⟨n', hn', hv, hnext⟩ := hl.node
  obtain rfl := Option.some.inj (hn.symm.trans hn')
  rw [copies, List.map_append, List.map_cons] at hr
  obtain ⟨c, hc, hv', hnext'⟩ := hr.node
  refine ⟨c, hc, hv'.trans hv.symm, ?_⟩
  have hentry := entry_eq hnext'
  rw [← copies, entry_copies, ← entry_eq hnext] at hentry
  exact hentry

/-- **What is a copy**: the new nodes are linked as the nodes are, and then their random pointers
are set. -/
theorem isCopy_of_set {m₁ m' : Mem Node} {r : Ptr} (hl : Chain m head l none)
    (hcopies : Chain m₁ r (copies copy l) none)
    (hinj : ∀ a ∈ l.map Prod.fst, ∀ b ∈ l.map Prod.fst, copy a = copy b → a = b)
    (hfree : ∀ a, m (copy a) = none)
    (hset : ∀ d ∈ l, ∀ n c, m d.1 = some n → m₁ (copy d.1) = some c →
      m' (copy d.1) = some { c with random := n.random.map copy })
    (hframe : ∀ b, (∀ d ∈ l, b ≠ copy d.1) → m' b = m b) :
    IsCopy m m' (l.map Prod.fst) copy head r where
  head_eq := by rw [entry_eq hcopies, entry_copies, ← entry_eq hl]
  node := by
    intro a ha
    obtain ⟨d, hd, rfl⟩ := List.mem_map.mp ha
    obtain ⟨n, hn, -⟩ := hl.exists_node hd
    obtain ⟨c, hc, hval, hnext⟩ := copy_linked hl hcopies hd hn
    refine ⟨n, hn, ?_⟩
    rw [hset d hd n c hn hc, hval, hnext]
  injective := hinj
  isNew := fun a _ => hfree a
  same := by
    intro a ha
    obtain ⟨d, hd, rfl⟩ := List.mem_map.mp ha
    exact hframe d.1 fun b _ => hl.ne_of_mem hd (hfree b.1)
  frame := fun b hb => hframe b fun d hd => hb d.1 (List.mem_map_of_mem hd)

/-- **`copyRandomList` copies a list** whose random pointers are null or lead to its nodes. -/
theorem copyRandomList_isCopy (hl : Chain m head l none)
    (hrandom : ∀ e ∈ l, ∀ n, m e.1 = some n → n.random = none ∨ ∃ d ∈ l, n.random = some d.1)
    (hnew : NewAddrs m res fresh) : ∃ p m' copy,
      copyRandomList fresh res m head = pure (p, m') ∧
        IsCopy m m' (l.map Prod.fst) copy head p := by
  have hnodup := hl.nodup
  obtain ⟨copy, hcopy⟩ : ∃ copy, copy = copyAt fresh (l.map Prod.fst) := ⟨_, rfl⟩
  have hat : ∀ j d, l[j]? = some d → copy d.1 = fresh j := by
    intro j d hj
    rw [hcopy, copyAt_of_getElem? hnodup]
    rw [List.getElem?_map, hj, Option.map_some]
  have hinj : ∀ a ∈ l.map Prod.fst, ∀ b ∈ l.map Prod.fst, copy a = copy b → a = b := by
    intro a ha b _ heq
    exact copyAt_inj hnew.injective ha (hcopy ▸ heq)
  have hfree : ∀ a, m (copy a) = none := fun a => hcopy ▸ hnew.free _
  have hres : ∀ a, copy a ≠ res := fun a => hcopy ▸ hnew.ne_res _
  -- the first loop
  set m₀ := m.set res (newNode 0)
  have ho₀ : ∀ a, a ≠ res → m₀ a = m a := fun a ha => Mem.set_of_ne _ _ ha
  have hl₀ : Chain m₀ head l none :=
    hl.congr fun d hd => ho₀ d.1 (hl.ne_of_mem hd hnew.res_free)
  have hstart : Chain m₀ (some res) ([] ++ [(res, 0)]) none :=
    ⟨rfl, newNode 0, Mem.set_self _ _ _, rfl, rfl⟩
  obtain ⟨m₁, mapping, hrun₁, hchain₁, hmap, hmap', hframe₁⟩ :=
    nodeLoop_eq Map.empty (i := 0) hl₀ hstart
      (fun j d hj => by rw [hat j d hj, Nat.zero_add])
      (fun d _ => (ho₀ _ (hres d.1)).trans (hfree d.1))
      (List.Nodup.map_on (fun a ha b hb heq => List.inj_on_of_nodup_map hnodup ha hb
        (hinj _ (List.mem_map_of_mem ha) _ (List.mem_map_of_mem hb) heq)) (hnodup.of_map _))
      (fun d hd => hl.ne_of_mem hd hnew.res_free)
  obtain ⟨-, r, hr, -, hcopies⟩ := hchain₁
  have hne : ∀ d ∈ l, ∀ a, d.1 ≠ copy a := fun d hd a => hl.ne_of_mem hd (hfree a)
  have hsame₁ : ∀ d ∈ l, m₁ d.1 = m d.1 := by
    intro d hd
    have hdr := hl.ne_of_mem hd hnew.res_free
    rw [hframe₁ d.1 hdr fun b _ => hne d hd b.1, ho₀ d.1 hdr]
  -- the second loop
  obtain ⟨m₂, hrun₂, hset, hframe₂⟩ := randomLoop_eq mapping (hl.congr hsame₁)
    hcopies (fun d hd b _ => hne d hd b.1) (by
      intro d hd n hn
      rcases hrandom d hd n ((hsame₁ d hd).symm.trans hn) with hnone | ⟨b, hb, hsome⟩
      · rw [hnone, hmap' none fun b _ => (Option.some_ne_none b.1).symm]
        rfl
      · rw [hsome, hmap b hb, Option.map_some])
  have hres₂ : m₂ res = some r := (hframe₂ res fun d _ => (hres d.1).symm).trans hr
  refine ⟨r.next, m₂.clear res, copy, ?_, isCopy_of_set hl hcopies hinj hfree ?_ ?_⟩
  · have hrun : randomLoop m₁ mapping head r.next = pure m₂ := hrun₂
    rw [copyRandomList, hrun₁, pure_bind, Mem.read_some hr, pure_bind, hrun, pure_bind,
      Mem.read_some hres₂, pure_bind]
  · intro d hd n c hn hc
    rw [Mem.clear_of_ne _ (hres d.1), hset d hd n c ((hsame₁ d hd).trans hn) hc]
  · intro b hb
    rcases eq_or_ne b res with rfl | hbr
    · rw [Mem.clear_self, hnew.res_free]
    · rw [Mem.clear_of_ne _ hbr, hframe₂ b hb, hframe₁ b hbr hb, ho₀ b hbr]

/-- Two nodes, whose random pointers lead to the second one. -/
def twoNodes : Mem Node :=
  Mem.set (Mem.set (fun _ => none) 1 ⟨7, some 2, some 2⟩) 2 ⟨13, none, some 2⟩

theorem copyRandomList_isCopy_two : ∃ p m' copy,
    copyRandomList (· + 3) 0 twoNodes (some 1) = pure (p, m') ∧
      IsCopy twoNodes m' [1, 2] copy (some 1) p := by
  have hchain : Chain twoNodes (some 1) [(1, 7), (2, 13)] none :=
    ⟨rfl, ⟨7, some 2, some 2⟩, rfl, rfl, rfl, ⟨13, none, some 2⟩, rfl, rfl, rfl⟩
  refine copyRandomList_isCopy hchain (fun e he n hn => .inr ⟨(2, 13), by simp, ?_⟩)
    ⟨rfl, fun i => ?_, fun i => ?_, fun i j h => ?_⟩
  · rcases List.mem_pair.mp he with rfl | rfl
    · obtain rfl := Option.some.inj hn
      rfl
    · obtain rfl := Option.some.inj hn
      rfl
  · have h1 : i + 3 ≠ 1 := by omega
    have h2 : i + 3 ≠ 2 := by omega
    rw [twoNodes, Mem.set_of_ne _ _ h2, Mem.set_of_ne _ _ h1]
  · exact Nat.succ_ne_zero (i + 2)
  · exact Nat.add_right_cancel h

end CopyRandomList

end Candcpp
