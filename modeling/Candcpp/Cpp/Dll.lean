import Candcpp.Cpp.Exec

/-!
# Doubly linked lists

The segments of doubly linked lists in a `Candcpp.Cpp.Mem`, for any class of nodes with
a `prev` and a `next` pointer (`Candcpp.Cpp.DLink`).

`Candcpp.Cpp.Seg m pv p l q` says that the list of addresses `l` is a segment of
the memory `m`: it is entered through the pointer `p`, the first node points
back to `pv`, the last one points on to `q`, and in between the two directions
agree. Nothing is said about repetitions: the operations that change a segment
ask for `List.Nodup` where they need it.

Every surgery on such lists is a sequence of two moves: `Candcpp.Cpp.linkNext` sets the
`next` of a node, `Candcpp.Cpp.linkPrev` the `prev` of one, each of them doing
nothing at the null pointer. **Two segments are joined by one of each**
(`Candcpp.Cpp.Seg.join`): an insertion is two joins, a removal is one.
-/

namespace Candcpp

namespace Cpp

/-- A class of nodes with two pointers, and nothing else that a change of one of
them could change. -/
class DLink (ν : Type) where
  /-- The `prev` field. -/
  prev : ν → Ptr
  /-- The `next` field. -/
  next : ν → Ptr
  /-- The write of the `prev` field. -/
  setPrev : Ptr → ν → ν
  /-- The write of the `next` field. -/
  setNext : Ptr → ν → ν
  prev_setPrev : ∀ p n, prev (setPrev p n) = p
  next_setPrev : ∀ p n, next (setPrev p n) = next n
  prev_setNext : ∀ p n, prev (setNext p n) = prev n
  next_setNext : ∀ p n, next (setNext p n) = p

attribute [simp] DLink.prev_setPrev DLink.next_setPrev DLink.prev_setNext DLink.next_setNext

open DLink

/-! ### The two ends of a list of addresses -/

/-- The last address of a list, or `pv` when there is none. -/
def lastOr (pv : Ptr) (l : List Addr) : Ptr := l.getLast?.or pv

/-- The first address of a list, or `q` when there is none. -/
def headOr (l : List Addr) (q : Ptr) : Ptr := l.head?.or q

@[simp] theorem lastOr_nil (pv : Ptr) : lastOr pv [] = pv := rfl

@[simp] theorem lastOr_cons (pv : Ptr) (a : Addr) (l : List Addr) :
    lastOr pv (a :: l) = lastOr (some a) l := by
  rw [lastOr, lastOr, List.getLast?_cons]
  cases l.getLast? <;> rfl

@[simp] theorem lastOr_append (pv : Ptr) (l₁ l₂ : List Addr) :
    lastOr pv (l₁ ++ l₂) = lastOr (lastOr pv l₁) l₂ := by
  rw [lastOr, lastOr, lastOr, List.getLast?_append, Option.or_assoc]

theorem lastOr_none (l : List Addr) : lastOr none l = l.getLast? := Option.or_none

@[simp] theorem headOr_nil (q : Ptr) : headOr [] q = q := rfl

@[simp] theorem headOr_cons (a : Addr) (l : List Addr) (q : Ptr) :
    headOr (a :: l) q = some a := rfl

@[simp] theorem headOr_append (l₁ l₂ : List Addr) (q : Ptr) :
    headOr (l₁ ++ l₂) q = headOr l₁ (headOr l₂ q) := by
  cases l₁ <;> rfl

theorem headOr_none (l : List Addr) : headOr l none = l.head? := Option.or_none

variable {ν δ : Type} [DLink ν]

/-! ### Segments -/

/-- **A segment**: the nodes at the addresses `l`, linked in both directions,
entered through `p`, the first pointing back to `pv` and the last on to `q`. -/
def Seg (m : Mem ν) : Ptr → Ptr → List Addr → Ptr → Prop
  | _, p, [], q => p = q
  | pv, p, a :: l, q => p = some a ∧ ∃ n, m a = some n ∧ prev n = pv ∧ Seg m (some a) (next n) l q

variable {m m' : Mem ν} {pv pv' p p' q q' r : Ptr} {l l₁ l₂ : List Addr} {a : Addr} {n : ν}

/-- A segment depends only on its own nodes. -/
theorem Seg.congr (h : Seg m pv p l q) (hm : ∀ a ∈ l, m' a = m a) : Seg m' pv p l q := by
  induction l generalizing pv p with
  | nil => exact h
  | cons a l ih =>
    obtain ⟨hp, n, hn, hpv, hl⟩ := h
    refine ⟨hp, n, ?_, hpv, ih hl fun b hb => hm b (List.mem_cons_of_mem a hb)⟩
    rw [hm a List.mem_cons_self, hn]

/-- The pointer a segment is entered through is its first node, or the node
after it. -/
theorem Seg.first (h : Seg m pv p l q) : p = headOr l q := by
  cases l with
  | nil => exact h
  | cons a l => exact h.1

theorem seg_append :
    Seg m pv p (l₁ ++ l₂) q ↔ ∃ r, Seg m pv p l₁ r ∧ Seg m (lastOr pv l₁) r l₂ q := by
  induction l₁ generalizing pv p with
  | nil =>
    constructor
    · intro h
      exact ⟨p, rfl, h⟩
    · rintro ⟨r, rfl, h⟩
      exact h
  | cons a l₁ ih =>
    rw [lastOr_cons]
    constructor
    · rintro ⟨hp, n, hn, hpv, hl⟩
      obtain ⟨r, h₁, h₂⟩ := ih.mp hl
      exact ⟨r, ⟨hp, n, hn, hpv, h₁⟩, h₂⟩
    · rintro ⟨r, ⟨hp, n, hn, hpv, h₁⟩, h₂⟩
      exact ⟨hp, n, hn, hpv, ih.mpr ⟨r, h₁, h₂⟩⟩

/-- A node by itself is a segment between its two pointers. -/
theorem Seg.single (hn : m a = some n) : Seg m (prev n) (some a) [a] (next n) :=
  ⟨rfl, n, hn, rfl, rfl⟩

/-- **The node at a position of a segment**: it is alive, and its two pointers
are its two neighbours. -/
theorem Seg.node (h : Seg m pv p (l₁ ++ a :: l₂) q) :
    ∃ n, m a = some n ∧ prev n = lastOr pv l₁ ∧ next n = headOr l₂ q := by
  obtain ⟨r, -, h₂⟩ := seg_append.mp h
  obtain ⟨-, n, hn, hpv, hl⟩ := h₂
  exact ⟨n, hn, hpv, hl.first⟩

/-- The part of a segment before a position. -/
theorem Seg.left (h : Seg m pv p (l₁ ++ l₂) q) : Seg m pv p l₁ (headOr l₂ q) := by
  obtain ⟨r, h₁, h₂⟩ := seg_append.mp h
  rwa [h₂.first] at h₁

/-- The part of a segment from a position on. -/
theorem Seg.right (h : Seg m pv p (l₁ ++ l₂) q) :
    Seg m (lastOr pv l₁) (headOr l₂ q) l₂ q := by
  obtain ⟨r, -, h₂⟩ := seg_append.mp h
  rwa [← h₂.first]

/-- The nodes of a segment are alive. -/
theorem Seg.alive (h : Seg m pv p l q) (ha : a ∈ l) : ∃ n, m a = some n := by
  obtain ⟨l₁, l₂, rfl⟩ := List.append_of_mem ha
  obtain ⟨n, hn, -⟩ := h.node
  exact ⟨n, hn⟩

/-- A segment goes through the rewriting of a node that keeps its two pointers. -/
theorem Seg.set {n' : ν} (h : Seg m pv p l q) (hn : m a = some n) (hpv : prev n' = prev n)
    (hnx : next n' = next n) : Seg (m.set a n') pv p l q := by
  induction l generalizing pv p with
  | nil => exact h
  | cons b l ih =>
    obtain ⟨hp, k, hk, hkpv, hl⟩ := h
    by_cases hb : b = a
    · subst hb
      obtain rfl : n = k := Option.some.inj (hn.symm.trans hk)
      refine ⟨hp, n', m.set_self b n', hpv.trans hkpv, ?_⟩
      rw [hnx]
      exact ih hl
    · exact ⟨hp, k, (m.set_of_ne n' hb).trans hk, hkpv, ih hl⟩

/-! ### The two moves -/

/-- `p->next = q`, or nothing when there is no node at `p`. -/
def linkNext (m : Mem ν) (p q : Ptr) : Mem ν :=
  match p with
  | none => m
  | some a => match m a with
    | none => m
    | some n => m.set a (setNext q n)

/-- `p->prev = q`, or nothing when there is no node at `p`. -/
def linkPrev (m : Mem ν) (p q : Ptr) : Mem ν :=
  match p with
  | none => m
  | some a => match m a with
    | none => m
    | some n => m.set a (setPrev q n)

@[simp] theorem linkNext_none (m : Mem ν) (q : Ptr) : linkNext m none q = m := rfl

@[simp] theorem linkPrev_none (m : Mem ν) (q : Ptr) : linkPrev m none q = m := rfl

theorem linkNext_some (hn : m a = some n) (q : Ptr) :
    linkNext m (some a) q = m.set a (setNext q n) := by
  simp only [linkNext, hn]

theorem linkPrev_some (hn : m a = some n) (q : Ptr) :
    linkPrev m (some a) q = m.set a (setPrev q n) := by
  simp only [linkPrev, hn]

theorem linkNext_self (hn : m a = some n) (q : Ptr) :
    linkNext m (some a) q a = some (setNext q n) := by
  rw [linkNext_some hn, Mem.set_self]

theorem linkPrev_self (hn : m a = some n) (q : Ptr) :
    linkPrev m (some a) q a = some (setPrev q n) := by
  rw [linkPrev_some hn, Mem.set_self]

/-- A move leaves the other nodes alone. -/
theorem linkNext_of_ne {b : Addr} (h : p ≠ some b) (q : Ptr) : linkNext m p q b = m b := by
  cases p with
  | none => rfl
  | some a =>
    have hab : b ≠ a := fun hc => h (by rw [hc])
    cases hn : m a with
    | none => simp only [linkNext, hn]
    | some n => rw [linkNext_some hn, Mem.set_of_ne _ _ hab]

theorem linkPrev_of_ne {b : Addr} (h : p ≠ some b) (q : Ptr) : linkPrev m p q b = m b := by
  cases p with
  | none => rfl
  | some a =>
    have hab : b ≠ a := fun hc => h (by rw [hc])
    cases hn : m a with
    | none => simp only [linkPrev, hn]
    | some n => rw [linkPrev_some hn, Mem.set_of_ne _ _ hab]

/-- A field that is neither of the two pointers goes through the moves. -/
theorem linkNext_map {f : ν → δ} (hf : ∀ q n, f (setNext q n) = f n) (m : Mem ν) (p q : Ptr)
    (b : Addr) : (linkNext m p q b).map f = (m b).map f := by
  cases p with
  | none => rfl
  | some a =>
    cases hn : m a with
    | none => simp only [linkNext, hn]
    | some n => rw [linkNext_some hn, Mem.map_set hn (hf q n)]

theorem linkPrev_map {f : ν → δ} (hf : ∀ q n, f (setPrev q n) = f n) (m : Mem ν) (p q : Ptr)
    (b : Addr) : (linkPrev m p q b).map f = (m b).map f := by
  cases p with
  | none => rfl
  | some a =>
    cases hn : m a with
    | none => simp only [linkPrev, hn]
    | some n => rw [linkPrev_some hn, Mem.map_set hn (hf q n)]

/-- A move and a deletion elsewhere can change places. -/
theorem linkPrev_clear (h : p ≠ some a) (q : Ptr) :
    linkPrev (m.clear a) p q = (linkPrev m p q).clear a := by
  cases p with
  | none => rfl
  | some b =>
    have hba : b ≠ a := fun hc => h (by rw [hc])
    cases hn : m b with
    | none =>
      have hn' : m.clear a b = none := by rw [Mem.clear_of_ne _ hba, hn]
      simp only [linkPrev, hn, hn']
    | some n =>
      have hn' : m.clear a b = some n := by rw [Mem.clear_of_ne _ hba, hn]
      rw [linkPrev_some hn, linkPrev_some hn', Mem.set, Mem.clear, Mem.clear, Mem.set,
        Function.update_comm hba]

theorem Alive.linkNext (h : Alive m p) (r q : Ptr) : Alive (Cpp.linkNext m r q) p := by
  obtain ⟨a, n, rfl, hn⟩ := h
  have hmap := linkNext_map (f := fun _ => ()) (fun _ _ => rfl) m r q a
  rw [hn] at hmap
  obtain ⟨n', hn', -⟩ := Option.map_eq_some_iff.mp hmap
  exact ⟨a, n', rfl, hn'⟩

theorem Alive.linkPrev (h : Alive m p) (r q : Ptr) : Alive (Cpp.linkPrev m r q) p := by
  obtain ⟨a, n, rfl, hn⟩ := h
  have hmap := linkPrev_map (f := fun _ => ()) (fun _ _ => rfl) m r q a
  rw [hn] at hmap
  obtain ⟨n', hn', -⟩ := Option.map_eq_some_iff.mp hmap
  exact ⟨a, n', rfl, hn'⟩

/-- The write of a `next` field is a move. -/
theorem Alive.modify_setNext (h : Alive m p) (q : Ptr) :
    m.modify p (setNext q) = pure (Cpp.linkNext m p q) := by
  obtain ⟨a, n, rfl, hn⟩ := h
  rw [Mem.modify_some hn, linkNext_some hn]

/-- The write of a `prev` field is a move. -/
theorem Alive.modify_setPrev (h : Alive m p) (q : Ptr) :
    m.modify p (setPrev q) = pure (Cpp.linkPrev m p q) := by
  obtain ⟨a, n, rfl, hn⟩ := h
  rw [Mem.modify_some hn, linkPrev_some hn]

/-! ### Segments under the moves -/

/-- A move at a node outside a segment keeps it. -/
theorem Seg.linkNext_frame (h : Seg m pv p l q) (hr : ∀ a ∈ l, r ≠ some a) (q' : Ptr) :
    Seg (linkNext m r q') pv p l q :=
  h.congr fun a ha => linkNext_of_ne (hr a ha) q'

theorem Seg.linkPrev_frame (h : Seg m pv p l q) (hr : ∀ a ∈ l, r ≠ some a) (q' : Ptr) :
    Seg (linkPrev m r q') pv p l q :=
  h.congr fun a ha => linkPrev_of_ne (hr a ha) q'

/-- A deletion outside a segment keeps it. -/
theorem Seg.clear_frame (h : Seg m pv p l q) (ha : a ∉ l) : Seg (m.clear a) pv p l q :=
  h.congr fun _ hb => m.clear_of_ne (ne_of_mem_of_not_mem hb ha)

/-- **The end of a segment can be redirected** by one move at its last node. -/
theorem Seg.linkNext_last (h : Seg m pv p l r) (hnd : l.Nodup) (q : Ptr) :
    Seg (linkNext m l.getLast? q) pv (headOr l q) l q := by
  rcases List.eq_nil_or_concat l with rfl | ⟨l, a, rfl⟩
  · rfl
  · rw [List.concat_eq_append] at h hnd ⊢
    obtain ⟨s, h₁, h₂⟩ := seg_append.mp h
    obtain ⟨hs, n, hn, hpv, -⟩ := h₂
    have ha : ∀ b ∈ l, (some a : Ptr) ≠ some b := by
      intro _ hb hab
      exact (List.nodup_append.mp hnd).2.2 _ hb a List.mem_cons_self (Option.some.inj hab).symm
    rw [List.getLast?_concat]
    refine seg_append.mpr ⟨some a, ?_, rfl, setNext q n, linkNext_self hn q, ?_, ?_⟩
    · have hp := (hs ▸ h₁).linkNext_frame ha q
      rwa [hp.first, ← headOr_cons a [] q, ← headOr_append] at hp
    · rw [prev_setNext, hpv]
    · rw [next_setNext]
      rfl

/-- **The start of a segment can be redirected** by one move at its first node. -/
theorem Seg.linkPrev_head (h : Seg m pv p l q) (hnd : l.Nodup) (pv' : Ptr) :
    Seg (linkPrev m l.head? pv') pv' p l q := by
  cases l with
  | nil => exact h
  | cons a l =>
    obtain ⟨hp, n, hn, -, hl⟩ := h
    refine ⟨hp, setPrev pv' n, linkPrev_self hn pv', prev_setPrev _ _, ?_⟩
    rw [next_setPrev]
    refine hl.linkPrev_frame (fun b hb hab => ?_) pv'
    rw [← Option.some.inj hab] at hb
    exact (List.nodup_cons.mp hnd).1 hb

/-- **Two segments are joined** by a move at the last node of the first and one
at the first node of the second. -/
theorem Seg.join (h₁ : Seg m pv p l₁ r) (h₂ : Seg m pv' p' l₂ q) (hnd : (l₁ ++ l₂).Nodup) :
    Seg (linkPrev (linkNext m l₁.getLast? (headOr l₂ q)) l₂.head? (lastOr pv l₁))
      pv (headOr (l₁ ++ l₂) q) (l₁ ++ l₂) q := by
  obtain ⟨hnd₁, hnd₂, hdis⟩ := List.nodup_append.mp hnd
  have hlast : ∀ b ∈ l₂, l₁.getLast? ≠ some b := fun b hb hl =>
    hdis b (List.mem_of_getLast? hl) b hb rfl
  have hhead : ∀ b ∈ l₁, l₂.head? ≠ some b := fun b hb hl =>
    hdis b hb b (List.mem_of_head? hl) rfl
  have hs₁ := (h₁.linkNext_last hnd₁ (headOr l₂ q)).linkPrev_frame hhead (lastOr pv l₁)
  have hs₂ := (h₂.linkNext_frame hlast (headOr l₂ q)).linkPrev_head hnd₂ (lastOr pv l₁)
  rw [headOr_append]
  rw [h₂.first] at hs₂
  exact seg_append.mpr ⟨headOr l₂ q, hs₁, hs₂⟩

variable {x : Addr}

/-- **Insertion** of the node `x` between two parts of a segment: it is joined to
both. -/
theorem Seg.insert (h : Seg m pv p (l₁ ++ l₂) q) (hx : m x = some n)
    (hnd : (l₁ ++ x :: l₂).Nodup) :
    Seg (linkPrev (linkNext (linkPrev (linkNext m l₁.getLast? (some x)) (some x) (lastOr pv l₁))
        (some x) (headOr l₂ q)) l₂.head? (some x))
      pv (headOr (l₁ ++ x :: l₂) q) (l₁ ++ x :: l₂) q := by
  have hnd' : ((l₁ ++ [x]) ++ l₂).Nodup := by
    rwa [List.append_assoc, List.singleton_append]
  have hleft := h.left.join (Seg.single hx) (List.nodup_append.mp hnd').1
  rw [headOr_cons, List.head?_cons] at hleft
  have hdis : ∀ b ∈ l₂, l₁.getLast? ≠ some b ∧ (some x : Ptr) ≠ some b := by
    intro b hb
    constructor
    · intro hl
      have hmem : b ∈ l₁ ++ [x] := List.mem_append_left _ (List.mem_of_getLast? hl)
      exact (List.nodup_append.mp hnd').2.2 b hmem b hb rfl
    · intro hl
      have hmem : x ∈ l₁ ++ [x] := List.mem_append_right _ List.mem_cons_self
      exact (List.nodup_append.mp hnd').2.2 x hmem b hb (Option.some.inj hl)
  have hright := (h.right.linkNext_frame (fun b hb => (hdis b hb).1) (some x)).linkPrev_frame
    (fun b hb => (hdis b hb).2) (lastOr pv l₁)
  have hjoin := hleft.join hright hnd'
  rwa [List.getLast?_concat, lastOr_append, lastOr_cons, lastOr_nil, List.append_assoc,
    List.singleton_append] at hjoin

/-- **Insertion in front**: a node without a predecessor is joined to the whole
segment. -/
theorem Seg.pushFront (h : Seg m pv p l q) (hx : m x = some n) (hpv : prev n = pv')
    (hnd : (x :: l).Nodup) :
    Seg (linkPrev (linkNext m (some x) (headOr l q)) l.head? (some x)) pv' (some x) (x :: l) q := by
  have hjoin := (Seg.single hx).join h (show ([x] ++ l).Nodup from hnd)
  rwa [hpv] at hjoin

/-- **Removal** of the node `x`: the two parts around it are joined. -/
theorem Seg.remove (h : Seg m pv p (l₁ ++ x :: l₂) q) (hnd : (l₁ ++ l₂).Nodup) :
    Seg (linkPrev (linkNext m l₁.getLast? (headOr l₂ q)) l₂.head? (lastOr pv l₁))
      pv (headOr (l₁ ++ l₂) q) (l₁ ++ l₂) q := by
  have hright : Seg m (lastOr pv (l₁ ++ [x])) (headOr l₂ q) l₂ q := by
    refine Seg.right (p := p) ?_
    rwa [List.append_assoc, List.singleton_append]
  exact h.left.join hright hnd

/-! ### Linking around a node

What a container does to delete a node of one of its lists, which run from null to
null: the two neighbours are linked to each other. -/

/-- The memory after the node between `l₁` and `l₂` has been linked around. -/
def detached (m : Mem ν) (l₁ l₂ : List Addr) : Mem ν :=
  linkPrev (linkNext m l₁.getLast? l₂.head?) l₂.head? l₁.getLast?

/-- A field that is neither of the two pointers goes through it. -/
theorem detached_map {f : ν → δ} (hnext : ∀ q n, f (setNext q n) = f n)
    (hprev : ∀ q n, f (setPrev q n) = f n) (m : Mem ν) (l₁ l₂ : List Addr) (b : Addr) :
    (detached m l₁ l₂ b).map f = (m b).map f := by
  rw [detached, linkPrev_map hprev, linkNext_map hnext]

/-- A node of a list without repetitions occurs once. -/
theorem notMem_of_nodup (h : (l₁ ++ x :: l₂).Nodup) : x ∉ l₁ ++ l₂ :=
  (List.nodup_cons.mp (List.perm_middle.nodup_iff.mp h)).1

/-- **What is left after a node has been linked around** is a list again. -/
theorem Seg.detach (h : Seg m none p (l₁ ++ x :: l₂) none) (hnd : (l₁ ++ x :: l₂).Nodup) :
    Seg (detached m l₁ l₂) none (l₁ ++ l₂).head? (l₁ ++ l₂) none := by
  have hseg := h.remove (List.nodup_cons.mp (List.perm_middle.nodup_iff.mp hnd)).2
  rwa [headOr_none, lastOr_none, headOr_none] at hseg

/-- The node at a position of a list, and its two neighbours. -/
theorem Seg.neighbours (h : Seg m none p (l₁ ++ x :: l₂) none) :
    ∃ n, m x = some n ∧ prev n = l₁.getLast? ∧ next n = l₂.head? := by
  obtain ⟨n, hn, hpv, hnx⟩ := h.node
  rw [lastOr_none] at hpv
  rw [headOr_none] at hnx
  exact ⟨n, hn, hpv, hnx⟩

/-- The neighbours of a node are other nodes: writing to them leaves it alone. -/
theorem linkNext_neighbour (hnd : (l₁ ++ x :: l₂).Nodup) (hn : m x = some n) (q : Ptr) :
    linkNext m l₁.getLast? q x = some n := by
  rw [linkNext_of_ne (fun hc => ?_), hn]
  exact notMem_of_nodup hnd (List.mem_append_left l₂ (List.mem_of_getLast? hc))

theorem detached_self (hnd : (l₁ ++ x :: l₂).Nodup) (hn : m x = some n) :
    detached m l₁ l₂ x = some n := by
  rw [detached, linkPrev_of_ne (fun hc => ?_), linkNext_neighbour hnd hn]
  exact notMem_of_nodup hnd (List.mem_append_right l₁ (List.mem_of_head? hc))

theorem detached_of_notMem {b : Addr} (hb : b ∉ l₁ ++ l₂) : detached m l₁ l₂ b = m b := by
  rw [detached, linkPrev_of_ne (fun hc => ?_), linkNext_of_ne (fun hc => ?_)]
  · exact hb (List.mem_append_left l₂ (List.mem_of_getLast? hc))
  · exact hb (List.mem_append_right l₁ (List.mem_of_head? hc))

/-- A node is the first of a list exactly when there is none before it. -/
theorem Seg.eq_head_iff (h : Seg m none p (l₁ ++ x :: l₂) none) (hnd : (l₁ ++ x :: l₂).Nodup) :
    some x = p ↔ l₁ = [] := by
  rw [h.first, headOr_none]
  cases l₁ with
  | nil => simp
  | cons b l₁ =>
    have hbx : x ≠ b := by
      rintro rfl
      exact notMem_of_nodup hnd List.mem_cons_self
    simp [hbx]

theorem Seg.alive_mem (h : Seg m pv p l q) (ha : a ∈ l) : Alive m (some a) := by
  obtain ⟨n, hn⟩ := h.alive ha
  exact alive_some hn

theorem Seg.alive_getLast (h : Seg m pv p (l₁ ++ l₂) q) (hne : l₁ ≠ []) :
    Alive m l₁.getLast? := by
  rw [List.getLast?_eq_some_getLast hne]
  exact h.alive_mem (List.mem_append_left l₂ (List.getLast_mem hne))

/-- `if (p) p->prev = q`, for the first node `p` of a list. -/
theorem modify_head (h : ∀ b, l.head? = some b → Alive m (some b)) (q : Ptr) :
    (if l.head? ≠ none then m.modify l.head? (setPrev q) else pure m) =
      pure (linkPrev m l.head? q) := by
  cases l with
  | nil => rfl
  | cons b l =>
    rw [if_pos (by simp), List.head?_cons]
    exact (h b rfl).modify_setPrev q

/-! ### What a whole list looks like from outside -/

/-- The nodes met from `p` along `next`, up to the null pointer. -/
inductive Nexts (m : Mem ν) : Ptr → List Addr → Prop
  /-- The null pointer ends the walk. -/
  | nil : Nexts m none []
  /-- A live node is met, and the walk goes on from its `next`. -/
  | cons {a : Addr} {n : ν} {l : List Addr} (hn : m a = some n) (hl : Nexts m (next n) l) :
      Nexts m (some a) (a :: l)

/-- **A doubly linked list**, as its users see it: from `p` the nodes `l` are met
along `next` up to the null pointer, the first has no predecessor, and a node
with a successor is the predecessor of its successor. -/
structure IsDll (m : Mem ν) (p : Ptr) (l : List Addr) : Prop where
  nexts : Nexts m p l
  headPrev : ∀ a n, p = some a → m a = some n → prev n = none
  back : ∀ a ∈ l, ∀ n, m a = some n → ∀ b, next n = some b →
    ∃ n', m b = some n' ∧ prev n' = some a

theorem Seg.nexts (h : Seg m pv p l none) : Nexts m p l := by
  induction l generalizing pv p with
  | nil => rw [show p = none from h]; exact .nil
  | cons a l ih =>
    obtain ⟨rfl, n, hn, -, hl⟩ := h
    exact .cons hn (ih hl)

/-- A segment from null to null is a doubly linked list. -/
theorem Seg.isDll (h : Seg m none p l none) : IsDll m p l where
  nexts := h.nexts
  headPrev := by
    rintro a n rfl hn
    cases l with
    | nil => exact absurd h (by simp [Seg])
    | cons b l =>
      obtain ⟨hab, n', hn', hpv, -⟩ := h
      obtain rfl : a = b := Option.some.inj hab
      rw [hn] at hn'
      rwa [Option.some.inj hn']
  back := by
    intro a ha n hn b hb
    obtain ⟨l₁, l₂, rfl⟩ := List.append_of_mem ha
    obtain ⟨n', hn', -, hnext⟩ := h.node
    rw [hn] at hn'
    rw [← Option.some.inj hn', hb] at hnext
    cases l₂ with
    | nil => simp at hnext
    | cons c l₂ =>
      obtain rfl : b = c := Option.some.inj hnext
      have h' : Seg m none p ((l₁ ++ [a]) ++ b :: l₂) none := by
        rwa [List.append_assoc, List.singleton_append]
      obtain ⟨nb, hnb, hpb, -⟩ := h'.node
      refine ⟨nb, hnb, ?_⟩
      rw [hpb, lastOr_append]
      rfl

end Cpp

end Candcpp
