import Candcpp.Object
import Candcpp.Cpp.Sll

/-!
# A singly linked list with indices

The class `MyLinkedList` of `leetcode/linked_list/707.cpp`: a singly linked list with a sentinel
node in front, whose elements are read, inserted and deleted by their index.

The list stands for the sequence of its values, and `Candcpp.MyLinkedList.model` says what the
calls are to do with it. There are two calls that the code does not execute
(`Candcpp.MyLinkedList.Good`): `get(index)` computes `index + 1`, which the greatest `int` does
not have, and `deleteAtIndex(index)` looks for the node at an index above zero before it asks
whether there is any node at all. Every sequence of other calls is answered as by the model, and
one with such a call is not (`Candcpp.MyLinkedList.calls_iff`).
-/

namespace Candcpp

open Cpp

/-- `struct Node`. -/
structure Node where
  val : ℤ
  next : Ptr
  deriving DecidableEq, Repr

instance : SLink Node ℤ where
  val := Node.val
  next := Node.next
  setNext := fun p n => { n with next := p }
  val_setNext := fun _ _ => rfl
  next_setNext := fun _ _ => rfl

/-- `class MyLinkedList`, with the memory of its nodes. -/
structure MyLinkedList where
  mem : Mem Node
  head : Ptr

namespace MyLinkedList

/-! ### The code -/

/-- `Node(val)`. -/
def newNode (val : ℤ) : Node where
  val := val
  next := none

/-- `MyLinkedList()`, where `new` returns `x`. -/
def create (x : Addr) : MyLinkedList where
  mem := Mem.set (fun _ => none) x (newNode (-1))
  head := some x

/-- The loop of `get`. -/
def getLoop (m : Mem Node) (p : Ptr) (index : ℤ) : Exec ℤ := do
  let +zeta getLoop : type_of% getLoop := by apply getLoop
  if index ≠ 0 then
    let n ← m.read p
    let p := n.next
    let index := index - 1
    if p = none then
      pure (-1)
    else
      getLoop m p index
  else
    let n ← m.read p
    pure n.val
partial_fixpoint

/-- `get(index)`. -/
def get (s : MyLinkedList) (index : ℤ) : Exec ℤ := do
  if index < 0 then
    pure (-1)
  else
    let index ← int (index + 1)
    getLoop s.mem s.head index

/-- `addAtHead(val)`, where `new` returns `x`. -/
def addAtHead (s : MyLinkedList) (val : ℤ) (x : Addr) : Exec MyLinkedList := do
  let mem := s.mem.set x (newNode val)
  let h ← mem.read s.head
  let mem ← mem.modify (some x) fun n => { n with next := h.next }
  let mem ← mem.modify s.head fun n => { n with next := some x }
  pure { s with mem := mem }

/-- The loop of `addAtTail`: the last node. -/
def addAtTailLoop (m : Mem Node) (prev p : Ptr) : Exec Ptr := do
  let +zeta addAtTailLoop : type_of% addAtTailLoop := by apply addAtTailLoop
  if p = none then
    pure prev
  else
    let n ← m.read p
    addAtTailLoop m p n.next
partial_fixpoint

/-- `addAtTail(val)`, where `new` returns `x`. -/
def addAtTail (s : MyLinkedList) (val : ℤ) (x : Addr) : Exec MyLinkedList := do
  let h ← s.mem.read s.head
  let prev ← addAtTailLoop s.mem s.head h.next
  let mem := s.mem.set x (newNode val)
  let mem ← mem.modify prev fun n => { n with next := some x }
  pure { s with mem := mem }

/-- The loop of `addAtIndex`: the node behind which to insert, unless it returns. -/
def addAtIndexLoop (m : Mem Node) (prev p : Ptr) (index : ℤ) : Exec (Option Ptr) := do
  let +zeta addAtIndexLoop : type_of% addAtIndexLoop := by apply addAtIndexLoop
  if index ≠ 0 then
    let prev := p
    if p = none ∧ index ≠ 0 then
      pure none
    else
      let index := index - 1
      let n ← m.read p
      addAtIndexLoop m prev n.next index
  else
    pure (some prev)
partial_fixpoint

/-- `addAtIndex(index, val)`, where `new` returns `x`. -/
def addAtIndex (s : MyLinkedList) (index val : ℤ) (x : Addr) : Exec MyLinkedList := do
  if index < 0 then
    pure s
  else
    let h ← s.mem.read s.head
    match ← addAtIndexLoop s.mem s.head h.next index with
    | none => pure s
    | some prev =>
      let mem := s.mem.set x (newNode val)
      let n ← mem.read prev
      let mem ← mem.modify (some x) fun t => { t with next := n.next }
      let mem ← mem.modify prev fun n => { n with next := some x }
      pure { s with mem := mem }

/-- The loop of `deleteAtIndex`: the node before the one to delete and that one, unless it
returns. -/
def deleteAtIndexLoop (m : Mem Node) (prev p : Ptr) (index : ℤ) : Exec (Option (Ptr × Ptr)) := do
  let +zeta deleteAtIndexLoop : type_of% deleteAtIndexLoop := by apply deleteAtIndexLoop
  if index ≠ 0 then
    let prev := p
    let n ← m.read p
    let p := n.next
    let index := index - 1
    if p = none then
      pure none
    else
      deleteAtIndexLoop m prev p index
  else
    pure (some (prev, p))
partial_fixpoint

/-- `deleteAtIndex(index)`. -/
def deleteAtIndex (s : MyLinkedList) (index : ℤ) : Exec MyLinkedList := do
  if index < 0 then
    pure s
  else
    let h ← s.mem.read s.head
    match ← deleteAtIndexLoop s.mem s.head h.next index with
    | none => pure s
    | some (prev, p) =>
      if p = none then
        pure s
      else
        let n ← s.mem.read p
        let mem ← s.mem.modify prev fun b => { b with next := n.next }
        let mem ← mem.delete p
        pure { s with mem := mem }

/-! ### The calls -/

/-- A call, with the address that `new` returns in it. -/
inductive Act where
  | get (index : ℤ) : Act
  | addAtHead (val : ℤ) (x : Addr) : Act
  | addAtTail (val : ℤ) (x : Addr) : Act
  | addAtIndex (index val : ℤ) (x : Addr) : Act
  | deleteAtIndex (index : ℤ) : Act
  deriving DecidableEq, Repr

/-- A call of a method that returns nothing. -/
def noAnswer (e : Exec MyLinkedList) : Exec (Option ℤ × MyLinkedList) := do
  let s ← e
  pure (none, s)

/-- The calls of a list. `new` returns an address that is not in use. -/
def object : Object MyLinkedList Act (Option ℤ) where
  allowed
    | s, .addAtHead _ x | s, .addAtTail _ x | s, .addAtIndex _ _ x => s.mem x = none
    | _, .get _ | _, .deleteAtIndex _ => True
  exec
    | s, .get index => do
      let r ← s.get index
      pure (some r, s)
    | s, .addAtHead val x => noAnswer (s.addAtHead val x)
    | s, .addAtTail val x => noAnswer (s.addAtTail val x)
    | s, .addAtIndex index val x => noAnswer (s.addAtIndex index val x)
    | s, .deleteAtIndex index => noAnswer (s.deleteAtIndex index)

/-- **The abstract sequence**: what the calls are to do. -/
def model : Model (List ℤ) Act (Option ℤ) where
  answer
    | xs, .get index => some (if 0 ≤ index ∧ index < xs.length then xs.getD index.toNat 0 else -1)
    | _, _ => none
  next
    | xs, .get _ => xs
    | xs, .addAtHead val _ => val :: xs
    | xs, .addAtTail val _ => xs ++ [val]
    | xs, .addAtIndex index val _ =>
      if 0 ≤ index ∧ index ≤ xs.length then xs.insertIdx index.toNat val else xs
    | xs, .deleteAtIndex index =>
      if 0 ≤ index ∧ index < xs.length then xs.eraseIdx index.toNat else xs

/-- **The calls that are good**: `get` below the greatest `int`, and `deleteAtIndex` with an
index above zero where the list is not empty. -/
def Good : List ℤ → Act → Prop
  | _, .get index => index < intMax
  | xs, .deleteAtIndex index => xs = [] → index ≤ 0
  | _, .addAtHead _ _ | _, .addAtTail _ _ | _, .addAtIndex _ _ _ => True

/-! ### The loops -/

variable {m : Mem Node} {p : Ptr} {e b d : Addr × ℤ} {l l₁ l₂ : List (Addr × ℤ)}

/-- The first node of a chain. -/
theorem chain_cons (h : Chain m p (e :: l) none) :
    p = some e.1 ∧ ∃ n : Node, m e.1 = some n ∧ n.val = e.2 ∧ Chain m n.next l none := h

/-- The pointer that enters a chain is null exactly if there is no node. -/
theorem enter_eq_none (h : Chain m p l none) : p = none ↔ l = [] := by
  cases l with
  | nil => exact iff_of_true h rfl
  | cons e l => simp [h.1]

/-- **The loop of `get`** finds the value at an index, and `-1` behind the last one. -/
theorem getLoop_eq (h : Chain m p (e :: l) none) (k : ℕ) :
    getLoop m p k = pure (((e :: l).map Prod.snd).getD k (-1)) := by
  induction k generalizing p e l with
  | zero =>
    obtain ⟨rfl, n, hn, hv, -⟩ := chain_cons h
    rw [getLoop, if_neg (by simp), Mem.read_some hn, pure_bind]
    exact congrArg pure hv
  | succ k ih =>
    obtain ⟨rfl, n, hn, -, hl⟩ := chain_cons h
    rw [getLoop, if_pos (by omega), Mem.read_some hn, pure_bind]
    simp only [enter_eq_none hl]
    cases l with
    | nil => rfl
    | cons c l =>
      rw [if_neg (List.cons_ne_nil c l), Nat.cast_succ, add_sub_cancel_right, ih hl]
      rfl

/-- **The loop of `addAtTail`** finds the last node. -/
theorem addAtTailLoop_eq (h : Chain m p l none) (hl : e :: l = l₁ ++ [b]) :
    addAtTailLoop m (some e.1) p = pure (some b.1) := by
  induction l generalizing p e l₁ with
  | nil =>
    obtain rfl : e = b := by simpa using congrArg List.getLast? hl
    rw [addAtTailLoop, if_pos ((enter_eq_none h).mpr rfl)]
  | cons c l ih =>
    obtain ⟨rfl, n, hn, -, hrest⟩ := chain_cons h
    rw [addAtTailLoop, if_neg (by simp), Mem.read_some hn, pure_bind]
    cases l₁ with
    | nil => simp at hl
    | cons a l₁ => exact ih hrest (List.cons.inj hl).2

/-- **The loop of `addAtIndex`** finds the node before an index of the list, its end included. -/
theorem addAtIndexLoop_eq (h : Chain m p l none) (hl : e :: l = l₁ ++ b :: l₂) :
    addAtIndexLoop m (some e.1) p l₁.length = pure (some (some b.1)) := by
  induction l₁ generalizing p e l with
  | nil =>
    obtain rfl : e = b := (List.cons.inj hl).1
    rw [addAtIndexLoop, if_neg (by simp)]
  | cons a l₁ ih =>
    obtain rfl : l = l₁ ++ b :: l₂ := (List.cons.inj hl).2
    obtain ⟨c, l', hc⟩ := List.exists_cons_of_ne_nil (List.append_ne_nil_of_right_ne_nil l₁
      (List.cons_ne_nil b l₂))
    rw [hc] at h
    obtain ⟨rfl, n, hn, -, hrest⟩ := chain_cons h
    rw [addAtIndexLoop, if_pos (by simp; omega), if_neg (by simp), Mem.read_some hn]
    rw [pure_bind, List.length_cons, Nat.cast_succ, add_sub_cancel_right]
    exact ih hrest hc.symm

/-- Behind the end of the list it returns. -/
theorem addAtIndexLoop_none (h : Chain m p l none) {prev : Ptr} {k : ℕ} (hk : l.length < k) :
    addAtIndexLoop m prev p k = pure none := by
  induction l generalizing p prev k with
  | nil =>
    rw [addAtIndexLoop, if_pos (by omega), if_pos ⟨(enter_eq_none h).mpr rfl, by omega⟩]
  | cons c l ih =>
    obtain ⟨rfl, n, hn, -, hrest⟩ := chain_cons h
    obtain ⟨k, rfl⟩ := Nat.exists_eq_add_of_lt (Nat.zero_lt_of_lt hk)
    rw [addAtIndexLoop, if_pos (by omega), if_neg (by simp), Mem.read_some hn, pure_bind]
    rw [zero_add, Nat.cast_succ, add_sub_cancel_right]
    exact ih hrest (by simpa using hk)

/-- **The loop of `deleteAtIndex`** finds the node at an index of the list and the one before. -/
theorem deleteAtIndexLoop_eq (h : Chain m p l none) (hl : e :: l = l₁ ++ b :: d :: l₂) :
    deleteAtIndexLoop m (some e.1) p l₁.length = pure (some (some b.1, some d.1)) := by
  induction l₁ generalizing p e l with
  | nil =>
    obtain ⟨rfl, rfl⟩ := List.cons.inj hl
    rw [deleteAtIndexLoop, if_neg (by simp), (chain_cons h).1]
  | cons a l₁ ih =>
    obtain rfl : l = l₁ ++ b :: d :: l₂ := (List.cons.inj hl).2
    obtain ⟨c, l', hc⟩ := List.exists_cons_of_ne_nil (List.append_ne_nil_of_right_ne_nil l₁
      (List.cons_ne_nil b (d :: l₂)))
    have hl' : l' ≠ [] := by
      rintro rfl
      have hlen := congrArg List.length hc
      simp only [List.length_append, List.length_cons, List.length_nil] at hlen
      omega
    rw [hc] at h
    obtain ⟨rfl, n, hn, -, hrest⟩ := chain_cons h
    have hnext : n.next ≠ none := mt (enter_eq_none hrest).mp hl'
    rw [deleteAtIndexLoop, if_pos (by simp; omega), Mem.read_some hn, pure_bind]
    simp only [if_neg hnext]
    rw [List.length_cons, Nat.cast_succ, add_sub_cancel_right]
    exact ih hrest hc.symm

/-- Behind the last element of a list that is not empty it returns. -/
theorem deleteAtIndexLoop_none (h : Chain m p (e :: l) none) {prev : Ptr} {k : ℕ}
    (hk : l.length < k) : deleteAtIndexLoop m prev p k = pure none := by
  induction l generalizing p prev e k with
  | nil =>
    obtain ⟨rfl, n, hn, -, hrest⟩ := chain_cons h
    rw [deleteAtIndexLoop, if_pos (by omega), Mem.read_some hn, pure_bind]
    simp only [if_pos ((enter_eq_none hrest).mpr rfl)]
  | cons c l ih =>
    obtain ⟨rfl, n, hn, -, hrest⟩ := chain_cons h
    obtain ⟨k, rfl⟩ := Nat.exists_eq_add_of_lt (Nat.zero_lt_of_lt hk)
    have hnext : n.next ≠ none := mt (enter_eq_none hrest).mp (List.cons_ne_nil c l)
    rw [deleteAtIndexLoop, if_pos (by omega), Mem.read_some hn, pure_bind]
    simp only [if_neg hnext]
    rw [zero_add, Nat.cast_succ, add_sub_cancel_right]
    exact ih hrest (by simpa using hk)

/-! ### The operations -/

/-- **What a list stands for**: the values of the nodes behind the sentinel. -/
def Represents (s : MyLinkedList) (xs : List ℤ) : Prop :=
  ∃ l, Chain s.mem s.head l none ∧ l.map Prod.snd = -1 :: xs

variable {s : MyLinkedList} {xs : List ℤ} {index val : ℤ} {x : Addr} {n t : Node}

theorem represents_create (x : Addr) : Represents (create x) [] :=
  ⟨[(x, -1)], ⟨rfl, newNode (-1), Mem.set_self (fun _ => none) x _, rfl, rfl⟩, rfl⟩

/-- The sentinel, and the nodes behind it. -/
theorem Represents.enter (h : Represents s xs) :
    ∃ e l n, s.head = some e.1 ∧ s.mem e.1 = some n ∧ Chain s.mem n.next l none ∧
      Chain s.mem s.head (e :: l) none ∧ (e :: l).map Prod.snd = -1 :: xs := by
  obtain ⟨l, hchain, hxs⟩ := h
  obtain _ | ⟨e, l⟩ := l
  · simp at hxs
  · obtain ⟨hhead, n, hn, -, hl⟩ := chain_cons hchain
    exact ⟨e, l, n, hhead, hn, hl, hchain, hxs⟩

/-- The node at a position, with those before and behind it. -/
theorem exists_split {k : ℕ} (hk : k < l.length) :
    ∃ l₁ e l₂, l = l₁ ++ e :: l₂ ∧ l₁.length = k :=
  ⟨l.take k, l[k], l.drop (k + 1), by simp, by simp; omega⟩

theorem insertIdx_append (l₁ l₂ : List ℤ) (v : ℤ) :
    (l₁ ++ l₂).insertIdx l₁.length v = l₁ ++ v :: l₂ := by
  induction l₁ with
  | nil => rfl
  | cons a l₁ ih => simp [ih]

/-- **`get` returns** the element, or `-1` out of range. -/
theorem Represents.get (h : Represents s xs) (hi : index < intMax) : s.get index =
    pure (if 0 ≤ index ∧ index < xs.length then xs.getD index.toNat 0 else -1) := by
  obtain ⟨e, l, -, -, -, -, hchain, hxs⟩ := h.enter
  rw [MyLinkedList.get]
  by_cases hneg : index < 0
  · rw [if_pos hneg, if_neg (fun hp => hneg.not_ge hp.1)]
  · obtain ⟨k, rfl⟩ := Int.eq_ofNat_of_zero_le (not_lt.mp hneg)
    rw [if_neg hneg, int_eq (by rw [intMin]; omega) (by omega), pure_bind, ← Nat.cast_succ,
      getLoop_eq hchain, hxs, List.getD_cons_succ, Int.toNat_natCast]
    by_cases hk : k < xs.length
    · rw [if_pos ⟨Int.natCast_nonneg k, by exact_mod_cast hk⟩, List.getD_eq_getElem _ _ hk,
        List.getD_eq_getElem _ _ hk]
    · rw [if_neg (fun hp => hk (by exact_mod_cast hp.2)), List.getD_eq_default _ _ (not_lt.mp hk)]

/-- **A node `t` has been put behind another one.** -/
theorem represents_insert (h : Chain s.mem s.head (l₁ ++ e :: l₂) none)
    (hxs : (l₁ ++ e :: l₂).map Prod.snd = -1 :: xs) (hn : s.mem e.1 = some n)
    (hx : s.mem x = none) (ht : t.next = n.next) :
    Represents { s with mem := (s.mem.set x t).set e.1 { n with next := some x } }
      (xs.insertIdx l₁.length t.val) := by
  refine ⟨_, h.insertAfter hn hx ht, ?_⟩
  have hbefore : (l₁ ++ e :: l₂).map Prod.snd =
      (l₁ ++ [e]).map Prod.snd ++ l₂.map Prod.snd := by simp
  have hafter : (l₁ ++ e :: (x, t.val) :: l₂).map Prod.snd =
      (l₁ ++ [e]).map Prod.snd ++ t.val :: l₂.map Prod.snd := by simp
  have hlen : l₁.length + 1 = ((l₁ ++ [e]).map Prod.snd).length := by simp
  rw [← List.insertIdx_succ_cons, ← hxs, hbefore, hlen, insertIdx_append, ← hafter]
  rfl

/-- The writes of an insertion: the new node points on, and then it is pointed to. -/
theorem link_eq {a : Addr} (hn : m a = some n) (hx : m x = none) (val : ℤ) (q : Ptr) :
    (do
      let mem ← (m.set x (newNode val)).modify (some x) fun t => { t with next := q }
      mem.modify (some a) fun n => { n with next := some x }) =
    pure ((m.set x { val := val, next := q }).set a { n with next := some x }) := by
  have hne : a ≠ x := fun hax => Option.some_ne_none n (hn.symm.trans (hax ▸ hx))
  have hset : (m.set x (newNode val)).set x { newNode val with next := q } =
      m.set x { val := val, next := q } := m.set_set x _ _
  rw [Mem.modify_some (Mem.set_self m x _), pure_bind, hset]
  exact Mem.modify_some (by rw [Mem.set_of_ne _ _ hne, hn]) _

/-- **`addAtHead` returns**, with the value in front. -/
theorem Represents.addAtHead (h : Represents s xs) (hx : s.mem x = none) (val : ℤ) :
    ∃ s', s.addAtHead val x = pure s' ∧ Represents s' (val :: xs) := by
  obtain ⟨e, l, n, hhead, hn, -, hchain, hxs⟩ := h.enter
  have hne : e.1 ≠ x := fun hax => Option.some_ne_none n (hn.symm.trans (hax ▸ hx))
  have hins := represents_insert (t := { val := val, next := n.next })
    (show Chain s.mem s.head ([] ++ e :: l) none from hchain) hxs hn hx rfl
  refine ⟨_, ?_, hins⟩
  have hlink := link_eq hn hx val n.next
  rw [MyLinkedList.addAtHead, hhead]
  simp only [Mem.read_some ((Mem.set_of_ne s.mem (newNode val) hne).trans hn), pure_bind]
  rw [← bind_assoc, hlink, pure_bind]

/-- **`addAtTail` returns**, with the value at the end. -/
theorem Represents.addAtTail (h : Represents s xs) (hx : s.mem x = none) (val : ℤ) :
    ∃ s', s.addAtTail val x = pure s' ∧ Represents s' (xs ++ [val]) := by
  obtain ⟨e, l, n, hhead, hn, hl, hchain, hxs⟩ := h.enter
  obtain ⟨l₁, b, l₂, hsplit, hlen⟩ := exists_split (l := e :: l) (k := l.length) (by simp)
  have hl₂ : l₂ = [] := by
    have hlength := congrArg List.length hsplit
    simp only [List.length_append, List.length_cons, hlen] at hlength
    exact List.eq_nil_of_length_eq_zero (by omega)
  have hxlen : l.length = xs.length := by simpa using congrArg List.length hxs
  subst hl₂
  rw [hsplit] at hchain hxs
  obtain ⟨nb, hnb, -, hlast⟩ := hchain.node
  have hne : b.1 ≠ x := fun hax => Option.some_ne_none nb (hnb.symm.trans (hax ▸ hx))
  have hnb' : (s.mem.set x (newNode val)) b.1 = some nb := (Mem.set_of_ne _ _ hne).trans hnb
  refine ⟨{ s with mem := (s.mem.set x (newNode val)).set b.1 { nb with next := some x } }, ?_, ?_⟩
  · rw [MyLinkedList.addAtTail, hhead, Mem.read_some hn, pure_bind, addAtTailLoop_eq hl hsplit,
      pure_bind]
    simp only [Mem.modify_some hnb', pure_bind]
  · have hins := represents_insert hchain hxs hnb hx (t := newNode val) hlast.symm
    rwa [hlen, hxlen, List.insertIdx_length_self] at hins

/-- **`addAtIndex` returns**, with the value at the index if the list has it or ends there. -/
theorem Represents.addAtIndex (h : Represents s xs) (hx : s.mem x = none) (index val : ℤ) :
    ∃ s', s.addAtIndex index val x = pure s' ∧ Represents s'
      (if 0 ≤ index ∧ index ≤ xs.length then xs.insertIdx index.toNat val else xs) := by
  rw [MyLinkedList.addAtIndex]
  by_cases hneg : index < 0
  · rw [if_pos hneg, if_neg (fun hp => hneg.not_ge hp.1)]
    exact ⟨s, rfl, h⟩
  · obtain ⟨k, rfl⟩ := Int.eq_ofNat_of_zero_le (not_lt.mp hneg)
    obtain ⟨e, l, n, hhead, hn, hl, hchain, hxs⟩ := h.enter
    have hxlen : l.length = xs.length := by simpa using congrArg List.length hxs
    rw [if_neg hneg, hhead, Mem.read_some hn, pure_bind, Int.toNat_natCast]
    by_cases hk : k ≤ xs.length
    · obtain ⟨l₁, b, l₂, hsplit, hlen⟩ := exists_split (l := e :: l) (k := k) (by simp; omega)
      obtain rfl := hlen
      rw [if_pos ⟨Int.natCast_nonneg _, by exact_mod_cast hk⟩, addAtIndexLoop_eq hl hsplit,
        pure_bind]
      rw [hsplit] at hchain hxs
      obtain ⟨nb, hnb, -, -⟩ := hchain.node
      have hne : b.1 ≠ x := fun hax => Option.some_ne_none nb (hnb.symm.trans (hax ▸ hx))
      have hnb' : (s.mem.set x (newNode val)) b.1 = some nb := (Mem.set_of_ne _ _ hne).trans hnb
      refine ⟨_, ?_, represents_insert (t := { val := val, next := nb.next }) hchain hxs hnb hx rfl⟩
      simp only [Mem.read_some hnb', pure_bind]
      rw [← bind_assoc, link_eq hnb hx val nb.next, pure_bind, hhead]
    · rw [if_neg (fun hp => hk (by exact_mod_cast hp.2)),
        addAtIndexLoop_none hl (by omega), pure_bind]
      exact ⟨s, rfl, h⟩

/-- **The node behind another one has been removed.** -/
theorem represents_remove {nd : Node} (h : Chain s.mem s.head (l₁ ++ e :: d :: l₂) none)
    (hxs : (l₁ ++ e :: d :: l₂).map Prod.snd = -1 :: xs) (hn : s.mem e.1 = some n)
    (hd : s.mem d.1 = some nd) :
    Represents { s with mem := (s.mem.set e.1 { n with next := nd.next }).clear d.1 }
      (xs.eraseIdx l₁.length) := by
  refine ⟨_, h.removeAfter hn hd, ?_⟩
  have hlen : ((l₁ ++ [e]).map Prod.snd).length = l₁.length + 1 := by simp
  have hsplit : (l₁ ++ e :: d :: l₂).map Prod.snd =
      (l₁ ++ [e]).map Prod.snd ++ d.2 :: l₂.map Prod.snd := by simp
  rw [← List.eraseIdx_cons_succ, ← hxs, hsplit, List.eraseIdx_append_of_length_le hlen.le, hlen,
    Nat.sub_self]
  simp

/-- **`deleteAtIndex` returns**, without the element if the index is in range, where the list
is not empty or the index not above zero. -/
theorem Represents.deleteAtIndex (h : Represents s xs) (hgood : xs = [] → index ≤ 0) :
    ∃ s', s.deleteAtIndex index = pure s' ∧ Represents s'
      (if 0 ≤ index ∧ index < xs.length then xs.eraseIdx index.toNat else xs) := by
  rw [MyLinkedList.deleteAtIndex]
  by_cases hneg : index < 0
  · rw [if_pos hneg, if_neg (fun hp => hneg.not_ge hp.1)]
    exact ⟨s, rfl, h⟩
  · obtain ⟨k, rfl⟩ := Int.eq_ofNat_of_zero_le (not_lt.mp hneg)
    obtain ⟨e, l, n, hhead, hn, hl, hchain, hxs⟩ := h.enter
    have hxlen : l.length = xs.length := by simpa using congrArg List.length hxs
    rw [if_neg hneg, hhead, Mem.read_some hn, pure_bind, Int.toNat_natCast]
    by_cases hk : k < xs.length
    · obtain ⟨l₁, b, l₂, hsplit, hlen⟩ := exists_split (l := e :: l) (k := k) (by simp; omega)
      obtain rfl := hlen
      obtain _ | ⟨d, l₂⟩ := l₂
      · have hlength := congrArg List.length hsplit
        simp only [List.length_append, List.length_cons, List.length_nil] at hlength
        omega
      · rw [if_pos ⟨Int.natCast_nonneg _, by exact_mod_cast hk⟩, deleteAtIndexLoop_eq hl hsplit,
          pure_bind]
        rw [hsplit] at hchain hxs
        obtain ⟨nb, hnb, -, hrest⟩ := hchain.node
        obtain ⟨-, nd, hnd, -⟩ := chain_cons hrest
        have hne : d.1 ≠ b.1 := fun hdb =>
          (hchain.split hnb).2.2.2 d List.mem_cons_self (by simp [hdb])
        refine ⟨_, ?_, represents_remove hchain hxs hnb hnd⟩
        have hnd' : (s.mem.set b.1 { nb with next := nd.next }) d.1 = some nd :=
          (Mem.set_of_ne _ _ hne).trans hnd
        simp only [if_neg (Option.some_ne_none d.1), Mem.read_some hnd, Mem.modify_some hnb,
          Mem.delete_some hnd', pure_bind, hhead]
    · rw [if_neg (fun hp => hk (by exact_mod_cast hp.2))]
      refine ⟨s, ?_, h⟩
      obtain _ | ⟨c, l⟩ := l
      · -- the list is empty, and the loop is not entered
        have hempty : xs = [] := List.eq_nil_of_length_eq_zero hxlen.symm
        have hzero : (k : ℤ) = 0 := le_antisymm (hgood hempty) (Int.natCast_nonneg k)
        rw [hzero, deleteAtIndexLoop, if_neg (not_not.mpr rfl), pure_bind]
        exact if_pos ((enter_eq_none hl).mpr rfl)
      · rw [deleteAtIndexLoop_none hl (by rw [List.length_cons] at hxlen; omega), pure_bind]

/-- **The null pointer**: in an empty list there is no node to start from. -/
theorem Represents.deleteAtIndex_fault (h : Represents s []) (hi : 0 < index) :
    s.deleteAtIndex index = throw .nullDeref := by
  obtain ⟨e, l, n, hhead, hn, hl, -, hxs⟩ := h.enter
  obtain rfl : l = [] := (by simpa using hxs : e.2 = -1 ∧ l = []).2
  have hnext : n.next = none := (enter_eq_none hl).mpr rfl
  rw [MyLinkedList.deleteAtIndex, if_neg hi.not_gt, hhead, Mem.read_some hn, pure_bind,
    deleteAtIndexLoop, if_pos hi.ne', hnext]
  rfl

/-! ### Sequences of calls -/

theorem noAnswer_eq {e : Exec MyLinkedList} {s' : MyLinkedList} (h : e = pure s') :
    noAnswer e = pure (none, s') := by
  rw [noAnswer, h, pure_bind]

/-- **A good call is answered** as by the abstract sequence. -/
theorem simulates : object.Simulates model Represents Good := by
  rintro s xs (index | ⟨val, x⟩ | ⟨val, x⟩ | ⟨index, val, x⟩ | index) hR hall hgood
  · exact ⟨s, by simp only [object, hR.get hgood, pure_bind]; rfl, hR⟩
  · obtain ⟨s', hs, hR'⟩ := hR.addAtHead hall val
    exact ⟨s', noAnswer_eq hs, hR'⟩
  · obtain ⟨s', hs, hR'⟩ := hR.addAtTail hall val
    exact ⟨s', noAnswer_eq hs, hR'⟩
  · obtain ⟨s', hs, hR'⟩ := hR.addAtIndex hall index val
    exact ⟨s', noAnswer_eq hs, hR'⟩
  · obtain ⟨s', hs, hR'⟩ := hR.deleteAtIndex hgood
    exact ⟨s', noAnswer_eq hs, hR'⟩

/-- **The greatest `int`** has no successor. -/
theorem get_fault (s : MyLinkedList) (hi : intMax ≤ index) : s.get index = throw .overflow := by
  have hpos : ¬ index < 0 := not_lt.mpr (le_trans (by decide) hi)
  rw [MyLinkedList.get, if_neg hpos, int, if_neg (fun hp => by omega)]
  rfl

/-- **A call that is not good does not return.** -/
theorem ne_pure_of_not_good (s : MyLinkedList) (xs : List ℤ) (a : Act) (hR : Represents s xs)
    (hgood : ¬ Good xs a) (r : Option ℤ × MyLinkedList) : object.exec s a ≠ pure r := by
  intro hr
  cases a with
  | get index =>
    obtain ⟨v, hv, -⟩ := Exec.bind_eq_pure.mp hr
    exact Exec.pure_ne_throw v _ (hv.symm.trans (get_fault s (not_lt.mp hgood)))
  | deleteAtIndex index =>
    obtain ⟨rfl, hi⟩ := Classical.not_imp.mp hgood
    obtain ⟨t, ht, -⟩ := Exec.bind_eq_pure.mp hr
    exact Exec.pure_ne_throw t _ (ht.symm.trans (hR.deleteAtIndex_fault (not_le.mp hi)))
  | addAtHead val x => exact hgood trivial
  | addAtTail val x => exact hgood trivial
  | addAtIndex index val x => exact hgood trivial

/-- **A sequence of calls is answered as by the abstract sequence exactly if the calls are
good**: each `get` is below the greatest `int`, and each `deleteAtIndex` with an index above zero
finds a list that is not empty. -/
theorem calls_iff {l : List Act} (hall : object.AllowedAll (create x) l) :
    (∃ s, object.calls (create x) l = pure (model.answers [] l, s) ∧
      Represents s (model.after [] l)) ↔ model.Guarded Good [] l :=
  simulates.calls_iff_guarded (fun s xs a hR _ => ne_pure_of_not_good s xs a hR)
    (represents_create x) hall

/-- A value is added and read, and the calls beyond the end change nothing. -/
theorem calls_iff_four : ∃ s, object.calls (create 0) [.addAtHead 7 1, .get 0, .deleteAtIndex 1,
    .get 1] = pure ([none, some 7, none, some (-1)], s) ∧ Represents s [7] := by
  have hall : object.AllowedAll (create 0) [.addAtHead 7 1, .get 0, .deleteAtIndex 1, .get 1] :=
    ⟨rfl, fun _ _ => ⟨trivial, fun _ _ => ⟨trivial, fun _ _ => ⟨trivial, fun _ _ => trivial⟩⟩⟩⟩
  refine (calls_iff hall).mpr ⟨trivial, ?_, ?_, ?_, trivial⟩
  · exact (by decide : (0 : ℤ) < intMax)
  · exact fun h => absurd h (by decide)
  · exact (by decide : (1 : ℤ) < intMax)

/-- Deleting at the index 1 of a new list dereferences the null pointer. -/
theorem not_calls : ¬ ∀ (x : Addr) (l : List Act), object.AllowedAll (create x) l →
    ∃ s, object.calls (create x) l = pure (model.answers [] l, s) ∧
      Represents s (model.after [] l) := by
  intro h
  obtain ⟨s, hs, -⟩ := h 0 [.deleteAtIndex 1] ⟨trivial, fun _ _ => trivial⟩
  obtain ⟨r, hr, -⟩ := Exec.bind_eq_pure.mp hs
  exact ne_pure_of_not_good _ [] _ (represents_create 0) (by simp [Good]) r hr

end MyLinkedList

end Candcpp
