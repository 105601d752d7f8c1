import Candcpp.Lts
import Candcpp.Cpp.Owners
import Candcpp.Class.Vector

/-!
# Vectors that share a buffer

Any number of `Vector`s, made, copied, appended to, sorted and destroyed in any order
(`Candcpp.Vectors.program`). The copy constructor gives the new Vector a buffer of its own. The
assignment is the one that the compiler generates, as the class declares none: it copies the
pointer.

A state is as it should be if no buffer has two owners, and the buffer of each Vector is there to
be deleted (`Candcpp.Vectors.Separate`). **In a run, all states are, and each operation leaves the
contents of the other Vectors alone, exactly if no Vector is assigned to another one**
(`Candcpp.Vectors.run_separate_iff`): as long as that does not happen, the Vectors are the owners of
all buffers (`Candcpp.Vectors.Inv`), and the rules of `Candcpp.Cpp.Owners` apply.
-/

namespace Candcpp

open Cpp

/-- The Vectors that are alive, and the buffers. -/
structure Vectors (α : Type) where
  objs : Mem Vector
  heap : Mem (Arr α)

namespace Vectors

variable {α : Type}

/-! ### The operations -/

/-- The operations on the Vector at the address `x`, with what `new` returns. -/
inductive Op (α : Type)
  /-- `Vector()`. -/
  | constructDefault (x : Addr) (b : Block α) : Op α
  /-- `Vector(capacity)`. -/
  | construct (x : Addr) (capacity : ℕ) (b : Block α) : Op α
  /-- `Vector(v)`. -/
  | copyConstruct (x v : Addr) (b : Block α) : Op α
  /-- `x = v`. -/
  | copyAssign (x v : Addr) : Op α
  /-- `x.append(value)`. -/
  | append (x : Addr) (value : α) (b : Block α) : Op α
  /-- `x.sort()`. -/
  | sort (x : Addr) : Op α
  /-- `~Vector()`. -/
  | destroy (x : Addr) : Op α

namespace Op

/-- The Vector that is made, changed or destroyed. -/
def subject : Op α → Addr
  | constructDefault x _ => x
  | construct x _ _ => x
  | copyConstruct x _ _ => x
  | copyAssign x _ => x
  | append x _ _ => x
  | sort x => x
  | destroy x => x

end Op

/-- The state before any operation. -/
def empty : Vectors α where
  objs := fun _ => none
  heap := fun _ => none

/-- A Vector and the heap after it has been made or changed. -/
def put (s : Vectors α) (x : Addr) (r : Vector × Mem (Arr α)) : Vectors α where
  objs := s.objs.set x r.1
  heap := r.2

/-- A Vector that is made is new, and one that is used is alive; what `new` returns was free. -/
def allowed (s : Vectors α) : Op α → Prop
  | .constructDefault x b => s.objs x = none ∧ s.heap b.addr = none
  | .construct x capacity b =>
    s.objs x = none ∧ s.heap b.addr = none ∧ capacity < Vector.sizeMod
  | .copyConstruct x v b => s.objs x = none ∧ s.objs v ≠ none ∧ s.heap b.addr = none
  | .copyAssign x v => s.objs x ≠ none ∧ s.objs v ≠ none
  | .append x _ b => s.objs x ≠ none ∧ s.heap b.addr = none
  | .sort x => s.objs x ≠ none
  | .destroy x => s.objs x ≠ none

/-- What the operations do, where `lt` is the operator `<` of the elements. -/
def exec (lt : α → α → Bool) (s : Vectors α) : Op α → Exec (Vectors α)
  | .constructDefault x b => pure (s.put x (Vector.constructDefault s.heap b))
  | .construct x capacity b => pure (s.put x (Vector.construct s.heap capacity b))
  | .copyConstruct x v b => do
    let v ← s.objs.read (some v)
    let r ← Vector.copyConstruct s.heap v b
    pure (s.put x r)
  | .copyAssign x v => do
    let v ← s.objs.read (some v)
    let objs ← s.objs.modify (some x) fun _ => v
    pure { s with objs := objs }
  | .append x value b => do
    let v ← s.objs.read (some x)
    let r ← Vector.append s.heap v value b
    pure (s.put x r)
  | .sort x => do
    let v ← s.objs.read (some x)
    let heap ← Vector.sort lt s.heap v
    pure { s with heap := heap }
  | .destroy x => do
    let v ← s.objs.read (some x)
    let heap ← s.heap.delete v.data
    pure { objs := s.objs.clear x, heap := heap }

/-- Programs that use Vectors. -/
def program (lt : α → α → Bool) : Program (Vectors α) (Op α) where
  init := fun s => s = empty
  allowed := allowed
  exec := exec lt

/-- The contents of the Vector at an address. -/
def contents (s : Vectors α) (x : Addr) : Option (List α) :=
  (s.objs x).bind (Vector.elements s.heap)

/-- **No buffer has two owners**, and the buffer of each Vector can be deleted. -/
structure Separate (s : Vectors α) : Prop where
  unique : ∀ x y v w a, s.objs x = some v → s.objs y = some w → v.data = some a →
    w.data = some a → x = y
  owns : ∀ x v, s.objs x = some v →
    ∃ a arr, v.data = some a ∧ s.heap a = some arr ∧ arr.size = v.capacity
  deletes : ∀ x v, s.objs x = some v → ∃ heap, s.heap.delete v.data = pure heap

/-! ### What the operations on one Vector do -/

variable {lt : α → α → Bool} {s s' : Vectors α} {val : Addr → Option (List α)} {x y : Addr}
  {v : Vector} {a : Addr} {l : List α} {heap heap' : Mem (Arr α)} {b : Block α} {arr : Arr α}
  {r : Vector × Mem (Arr α)} {i j : ℤ} {n : ℕ}

/-- A swap stays within the buffer. -/
theorem overwrites_swap (h : heap a = some arr)
    (hr : Vector.swap_ heap (some a) i j = pure heap') : heap.Overwrites a heap' := by
  obtain ⟨t, -, hr⟩ := Exec.bind_eq_pure.mp hr
  obtain ⟨x, -, hr⟩ := Exec.bind_eq_pure.mp hr
  obtain ⟨heap₁, h₁, hr⟩ := Exec.bind_eq_pure.mp hr
  have hw := Mem.overwrites_of_putAt h h₁
  obtain ⟨arr', harr'⟩ := hw.alive
  exact hw.trans (Mem.overwrites_of_putAt harr' hr)

theorem overwrites_bubble (h : heap a = some arr)
    (hr : Vector.bubble lt heap (some a) i n = pure heap') : heap.Overwrites a heap' := by
  induction n generalizing heap arr with
  | zero =>
    obtain rfl := Exec.pure_inj.mp hr
    exact .refl h
  | succ n ih =>
    rw [Vector.bubble] at hr
    obtain ⟨x, -, hr⟩ := Exec.bind_eq_pure.mp hr
    obtain ⟨y, -, hr⟩ := Exec.bind_eq_pure.mp hr
    split_ifs at hr
    · obtain ⟨heap₁, h₁, hr⟩ := Exec.bind_eq_pure.mp hr
      have hw := overwrites_swap h h₁
      obtain ⟨arr', harr'⟩ := hw.alive
      exact hw.trans (ih harr' hr)
    · rw [pure_bind] at hr
      exact ih h hr

/-- **Sorting stays within the buffer** of the Vector. -/
theorem overwrites_sortLoop (hv : v.data = some a) (h : heap a = some arr)
    (hr : Vector.sortLoop lt heap v i n = pure heap') : heap.Overwrites a heap' := by
  induction n generalizing heap arr i with
  | zero =>
    obtain rfl := Exec.pure_inj.mp hr
    exact .refl h
  | succ n ih =>
    obtain ⟨heap₁, h₁, hr⟩ := Exec.bind_eq_pure.mp hr
    obtain ⟨k, -, hr⟩ := Exec.bind_eq_pure.mp hr
    rw [hv] at h₁
    have hw := overwrites_bubble h h₁
    obtain ⟨arr', harr'⟩ := hw.alive
    exact hw.trans (ih harr' hr)

/-- An append that returns has stored its element, after the Vector has grown or not. -/
theorem append_eq_pure {value : α} (h : Vector.append heap v value b = pure r) :
    ∃ q, (Vector.grow heap v b = pure q ∨ q = (v, heap)) ∧
      q.2.putAt q.1.data q.1.size value = pure r.2 ∧
      r.1 = { q.1 with size := (q.1.size + 1) % Vector.sizeMod } := by
  rw [Vector.append] at h
  split_ifs at h
  · obtain ⟨q, hq, h⟩ := Exec.bind_eq_pure.mp h
    obtain ⟨heap₁, hput, h⟩ := Exec.bind_eq_pure.mp h
    obtain rfl := Exec.pure_inj.mp h
    exact ⟨q, .inl hq, hput, rfl⟩
  · rw [pure_bind] at h
    obtain ⟨heap₁, hput, h⟩ := Exec.bind_eq_pure.mp h
    obtain rfl := Exec.pure_inj.mp h
    exact ⟨_, .inr rfl, hput, rfl⟩

/-! ### The Vectors own the buffers -/

/-- The pointers of the Vectors that are alive. -/
def ptr (s : Vectors α) (x : Addr) : Option Ptr := (s.objs x).map Vector.data

/-- **The invariant**: the Vectors own the buffers, with the contents `val`, and a buffer is as
long as the capacity says. -/
structure Inv (s : Vectors α) (val : Addr → Option (List α)) : Prop where
  owners : Owners s.heap s.ptr val
  full : ∀ x v, s.objs x = some v →
    ∃ a l, v.data = some a ∧ val x = some l ∧ l.length = v.capacity

theorem inv_empty : Inv (empty : Vectors α) fun _ => none where
  owners := Owners.empty
  full := fun _ _ h => nomatch h

theorem ptr_eq (h : s.objs x = some v) (ha : v.data = some a) : s.ptr x = some (some a) := by
  rw [ptr, h, Option.map_some, ha]

/-- What a Vector that is not alive may be given. -/
theorem bare_of_dead (hx : s.objs x = none) : Owners.Bare s.ptr x :=
  Owners.bare_of_none (by rw [ptr, hx, Option.map_none])

/-- The buffer of a Vector that is alive. -/
theorem Inv.exists_arr (h : Inv s val) (hx : s.objs x = some v) :
    ∃ a arr, v.data = some a ∧ s.ptr x = some (some a) ∧ s.heap a = some arr ∧
      val x = some arr.toList ∧ arr.size = v.capacity := by
  obtain ⟨a, l, ha, hl, hlen⟩ := h.full x v hx
  obtain ⟨arr, harr, hl'⟩ := h.owners.exists_arr (ptr_eq hx ha)
  refine ⟨a, arr, ha, ptr_eq hx ha, harr, hl', ?_⟩
  rw [hl'] at hl
  rw [← hlen, ← Option.some.inj hl, Arr.length_toList]

theorem Inv.separate (h : Inv s val) : Separate s where
  unique := fun x y v w a hx hy hv hw => h.owners.unique x y a (ptr_eq hx hv) (ptr_eq hy hw)
  owns := fun x v hx => by
    obtain ⟨a, arr, ha, -, harr, -, hsize⟩ := h.exists_arr hx
    exact ⟨a, arr, ha, harr, hsize⟩
  deletes := fun x v hx => by
    obtain ⟨a, arr, ha, -, harr, -, -⟩ := h.exists_arr hx
    exact ⟨_, by rw [ha]; exact Mem.delete_some harr⟩

/-- What a Vector contains depends on it and on the buffer it owns. -/
theorem Inv.contents_eq (h : Inv s val) (x : Addr) :
    contents s x = (s.objs x).bind fun v => (val x).map (List.take v.size) := by
  cases hx : s.objs x with
  | none => rw [contents, hx, Option.bind_none, Option.bind_none]
  | some v =>
    obtain ⟨a, arr, ha, -, harr, hval, -⟩ := h.exists_arr hx
    rw [contents, hx, Option.bind_some, Option.bind_some, Vector.elements, ha, Option.bind_some,
      harr, hval, Option.map_some, Option.map_some]

/-- The other Vectors, and the contents of their buffers, are as they were. -/
def Kept (s s' : Vectors α) (val val' : Addr → Option (List α)) (x : Addr) : Prop :=
  ∀ y, y ≠ x → s'.objs y = s.objs y ∧ val' y = val y

theorem Kept.contents_eq {val' : Addr → Option (List α)} (hk : Kept s s' val val' x)
    (h : Inv s val) (h' : Inv s' val') (hy : y ≠ x) : contents s' y = contents s y := by
  obtain ⟨hobjs, hval⟩ := hk y hy
  rw [h'.contents_eq, h.contents_eq, hobjs, hval]

/-- **A Vector is made or changed**, and owns its buffer. -/
theorem Inv.put (h : Inv s val)
    (hown : Owners r.2 (Function.update s.ptr x (some (some a))) (Function.update val x (some l)))
    (ha : r.1.data = some a) (hl : l.length = r.1.capacity) :
    ∃ val', Inv (s.put x r) val' ∧ Kept s (s.put x r) val val' x := by
  have hptr : (s.put x r).ptr = Function.update s.ptr x (some (some a)) := by
    rw [← ha]
    exact Function.comp_update (Option.map Vector.data) s.objs x (some r.1)
  refine ⟨_, ⟨hptr ▸ hown, fun y w hy => ?_⟩, fun y hy => ?_⟩
  · by_cases hyx : y = x
    · subst hyx
      obtain rfl := Option.some.inj ((Mem.set_self s.objs y r.1).symm.trans hy)
      exact ⟨a, l, ha, Function.update_self .., hl⟩
    · rw [Function.update_of_ne hyx]
      exact h.full y w ((Mem.set_of_ne s.objs r.1 hyx).symm.trans hy)
  · exact ⟨Mem.set_of_ne s.objs r.1 hy, Function.update_of_ne hy _ _⟩

theorem Inv.construct (h : Inv s val) (hx : s.objs x = none) (hb : s.heap b.addr = none)
    (capacity : ℕ) : ∃ val', Inv (s.put x (Vector.construct s.heap capacity b)) val' ∧
      Kept s (s.put x (Vector.construct s.heap capacity b)) val val' x := by
  let arr : Arr α := { data := b.junk, size := capacity }
  exact h.put (h.owners.alloc (bare_of_dead hx) hb arr) rfl (Arr.length_toList arr)

theorem Inv.copyConstruct (h : Inv s val) (hx : s.objs x = none) (hb : s.heap b.addr = none)
    (hr : Vector.copyConstruct s.heap v b = pure r) :
    ∃ val', Inv (s.put x r) val' ∧ Kept s (s.put x r) val val' x := by
  obtain ⟨heap₁, hcopy, hr⟩ := Exec.bind_eq_pure.mp hr
  obtain rfl := Exec.pure_inj.mp hr
  obtain ⟨arr, hsize, rfl⟩ := Mem.eq_set_of_copyTo hcopy
  exact h.put (h.owners.alloc (bare_of_dead hx) hb arr) rfl ((Arr.length_toList arr).trans hsize)

/-- A Vector that is to be appended to owns a buffer of its capacity, whether it has grown or
not. -/
theorem Inv.grow (h : Inv s val) (hx : s.objs x = some v) (hb : s.heap b.addr = none)
    (hr : Vector.grow s.heap v b = pure r ∨ r = (v, s.heap)) :
    ∃ a l, r.1.data = some a ∧ l.length = r.1.capacity ∧
      Owners r.2 (Function.update s.ptr x (some (some a))) (Function.update val x (some l)) := by
  obtain ⟨a, arr, ha, hptr, harr, hval, hsize⟩ := h.exists_arr hx
  rcases hr with hr | rfl
  · obtain ⟨-, arr', hsize', hdelete, hv⟩ := Vector.grow_eq_pure hr
    obtain ⟨heap₁, hheap, hown⟩ := h.owners.replace hptr hb arr'
    rw [ha] at hdelete
    obtain rfl := Exec.pure_unique hdelete hheap
    exact ⟨b.addr, arr'.toList, by rw [hv], by rw [Arr.length_toList, hsize', hv], hown⟩
  · refine ⟨a, arr.toList, ha, by rw [Arr.length_toList, hsize], ?_⟩
    rw [Function.update_eq_self_iff.mpr hptr.symm, Function.update_eq_self_iff.mpr hval.symm]
    exact h.owners

theorem Inv.append {value : α} (h : Inv s val) (hx : s.objs x = some v)
    (hb : s.heap b.addr = none) (hr : Vector.append s.heap v value b = pure r) :
    ∃ val', Inv (s.put x r) val' ∧ Kept s (s.put x r) val val' x := by
  obtain ⟨q, hq, hput, hv⟩ := append_eq_pure hr
  obtain ⟨a, l, ha, hl, hown⟩ := h.grow hx hb hq
  have hptr : Function.update s.ptr x (some (some a)) x = some (some a) := Function.update_self ..
  obtain ⟨arr, harr, -⟩ := hown.exists_arr hptr
  rw [ha] at hput
  obtain ⟨l', hl', hown'⟩ :=
    hown.overwrite hptr (Function.update_self ..) (Mem.overwrites_of_putAt harr hput)
  rw [Function.update_idem] at hown'
  exact h.put hown' (by rw [hv, ha]) (by rw [hl', hl, hv])

theorem Inv.sort (h : Inv s val) (hx : s.objs x = some v)
    (hr : Vector.sort lt s.heap v = pure heap') :
    ∃ val', Inv { s with heap := heap' } val' ∧ Kept s { s with heap := heap' } val val' x := by
  obtain ⟨a, arr, ha, hptr, harr, hval, hsize⟩ := h.exists_arr hx
  obtain ⟨l', hl', hown⟩ := h.owners.overwrite hptr hval (overwrites_sortLoop ha harr hr)
  refine ⟨_, ⟨hown, fun y w hy => ?_⟩, fun y hy => ⟨rfl, Function.update_of_ne hy _ _⟩⟩
  by_cases hyx : y = x
  · subst hyx
    obtain rfl := Option.some.inj (hx.symm.trans hy)
    exact ⟨a, l', ha, Function.update_self .., by rw [hl', Arr.length_toList, hsize]⟩
  · rw [Function.update_of_ne hyx]
    exact h.full y w hy

theorem Inv.destroy (h : Inv s val) (hx : s.objs x = some v)
    (hr : s.heap.delete v.data = pure heap') :
    ∃ val', Inv { objs := s.objs.clear x, heap := heap' } val' ∧
      Kept s { objs := s.objs.clear x, heap := heap' } val val' x := by
  have hptr : s.ptr x = some v.data := by rw [ptr, hx, Option.map_some]
  obtain ⟨heap₁, hdelete, hgone⟩ := h.owners.release hptr
  obtain rfl := Exec.pure_unique hr hdelete
  have hptr' : Vectors.ptr { objs := s.objs.clear x, heap := heap' } =
      Function.update s.ptr x none :=
    Function.comp_update (Option.map Vector.data) s.objs x none
  refine ⟨_, ⟨hptr' ▸ hgone, fun y w hy => ?_⟩, fun y hy => ?_⟩
  · have hyx : y ≠ x := by
      rintro rfl
      exact nomatch (Mem.clear_self s.objs y).symm.trans hy
    rw [Function.update_of_ne hyx]
    exact h.full y w ((Mem.clear_of_ne s.objs hyx).symm.trans hy)
  · exact ⟨Mem.clear_of_ne s.objs hy, Function.update_of_ne hy _ _⟩

/-! ### Every run -/

/-- **One operation**, unless it assigns a Vector to another one. -/
theorem Inv.step {op : Op α} (h : Inv s val) (hall : allowed s op) (hr : exec lt s op = pure s')
    (hself : ∀ x v, op = .copyAssign x v → x = v) :
    ∃ val', Inv s' val' ∧ Kept s s' val val' op.subject := by
  cases op with
  | constructDefault x b =>
    obtain rfl := Exec.pure_inj.mp hr
    exact h.construct hall.1 hall.2 4
  | construct x capacity b =>
    obtain rfl := Exec.pure_inj.mp hr
    exact h.construct hall.1 hall.2.1 capacity
  | copyConstruct x v b =>
    obtain ⟨w, -, hr⟩ := Exec.bind_eq_pure.mp hr
    obtain ⟨r, hcopy, hr⟩ := Exec.bind_eq_pure.mp hr
    obtain rfl := Exec.pure_inj.mp hr
    exact h.copyConstruct hall.1 hall.2.2 hcopy
  | copyAssign x v =>
    -- a Vector that is assigned to itself stays what it is
    obtain rfl := hself x v rfl
    obtain ⟨w, hread, hr⟩ := Exec.bind_eq_pure.mp hr
    have hx := Mem.eq_some_of_read hread
    rw [Mem.modify_some hx, pure_bind, Mem.set_eq_self hx] at hr
    obtain rfl := Exec.pure_inj.mp hr
    exact ⟨val, h, fun y _ => ⟨rfl, rfl⟩⟩
  | append x value b =>
    obtain ⟨w, hread, hr⟩ := Exec.bind_eq_pure.mp hr
    obtain ⟨r, happend, hr⟩ := Exec.bind_eq_pure.mp hr
    obtain rfl := Exec.pure_inj.mp hr
    exact h.append (Mem.eq_some_of_read hread) hall.2 happend
  | sort x =>
    obtain ⟨w, hread, hr⟩ := Exec.bind_eq_pure.mp hr
    obtain ⟨heap, hsort, hr⟩ := Exec.bind_eq_pure.mp hr
    obtain rfl := Exec.pure_inj.mp hr
    exact h.sort (Mem.eq_some_of_read hread) hsort
  | destroy x =>
    obtain ⟨w, hread, hr⟩ := Exec.bind_eq_pure.mp hr
    obtain ⟨heap, hdelete, hr⟩ := Exec.bind_eq_pure.mp hr
    obtain rfl := Exec.pure_inj.mp hr
    exact h.destroy (Mem.eq_some_of_read hread) hdelete

/-- After an assignment, two Vectors have one buffer. -/
theorem not_separate_of_copyAssign (h : Separate s)
    (hr : exec lt s (.copyAssign x y) = pure s') (hxy : x ≠ y) : ¬ Separate s' := by
  intro h'
  obtain ⟨w, hread, hr⟩ := Exec.bind_eq_pure.mp hr
  obtain ⟨objs, hmodify, hr⟩ := Exec.bind_eq_pure.mp hr
  obtain rfl := Exec.pure_inj.mp hr
  have hy := Mem.eq_some_of_read hread
  obtain ⟨a, -, ha, -⟩ := h.owns y w hy
  cases hx : s.objs x with
  | none =>
    simp only [Mem.modify, hx] at hmodify
    exact absurd hmodify.symm (Exec.pure_ne_throw _ _)
  | some v =>
    rw [Mem.modify_some hx] at hmodify
    obtain rfl := Exec.pure_inj.mp hmodify
    exact hxy (h'.unique x y w w a (Mem.set_self s.objs x w)
      ((Mem.set_of_ne s.objs w hxy.symm).trans hy) ha ha)

/-- **In a run no buffer has two owners or is deleted twice, and no operation on a Vector changes
the contents of another one**, exactly if no Vector is assigned to another one. -/
theorem run_separate_iff {l : List (Vectors α × Op α)}
    (hl : (program lt).lts.Run empty l s) :
    ((∀ t ∈ Lts.visited l s, Separate t) ∧
      ∀ p ∈ l, ∀ t, (program lt).lts.step p.1 p.2 t →
        ∀ y, y ≠ p.2.subject → contents t y = contents p.1 y) ↔
      ∀ p ∈ l, ∀ x v, p.2 = .copyAssign x v → x = v := by
  constructor
  · rintro ⟨hsep, -⟩ ⟨t, op⟩ hp x v rfl
    by_contra hxv
    obtain ⟨t', hstep, ht'⟩ := hl.next hp
    have ht : t ∈ Lts.visited l s := Lts.mem_visited hp s
    have hexec : exec lt t (.copyAssign x v) = pure t' := hstep.2
    exact not_separate_of_copyAssign (hsep t ht) hexec hxv (hsep t' ht')
  · intro hself
    have hinv : ∀ t ∈ Lts.visited l s, ∃ val, Inv t val := by
      refine hl.invariant ⟨_, inv_empty⟩ ?_
      rintro p hp t ⟨val, h⟩ hstep
      obtain ⟨val', h', -⟩ := h.step hstep.1 hstep.2 (hself p hp)
      exact ⟨val', h'⟩
    refine ⟨fun t ht => ?_, fun p hp t hstep y hy => ?_⟩
    · obtain ⟨val, h⟩ := hinv t ht
      exact h.separate
    · obtain ⟨val, h⟩ := hinv p.1 (Lts.mem_visited hp s)
      obtain ⟨val', h', hkept⟩ := h.step hstep.1 hstep.2 (hself p hp)
      exact hkept.contents_eq h h' hy

instance (s : Vectors α) (op : Op α) : Decidable ((program lt).allowed s op) :=
  match op with
  | .constructDefault x b => inferInstanceAs (Decidable (s.objs x = none ∧ s.heap b.addr = none))
  | .construct x capacity b => inferInstanceAs (Decidable (s.objs x = none ∧
      s.heap b.addr = none ∧ capacity < Vector.sizeMod))
  | .copyConstruct x v b => inferInstanceAs (Decidable (s.objs x = none ∧ s.objs v ≠ none ∧
      s.heap b.addr = none))
  | .copyAssign x v => inferInstanceAs (Decidable (s.objs x ≠ none ∧ s.objs v ≠ none))
  | .append x _ b => inferInstanceAs (Decidable (s.objs x ≠ none ∧ s.heap b.addr = none))
  | .sort x => inferInstanceAs (Decidable (s.objs x ≠ none))
  | .destroy x => inferInstanceAs (Decidable (s.objs x ≠ none))

/-- A Vector is copied, and destroyed; the copy keeps the element. -/
theorem run_separate_iff_five : ∃ l s, (program fun x y : ℤ => decide (x < y)).lts.Run empty l s ∧
    contents s 1 = some [5] ∧ (∀ t ∈ Lts.visited l s, Separate t) ∧
      ∀ p ∈ l, ∀ t, (program fun x y : ℤ => decide (x < y)).lts.step p.1 p.2 t →
        ∀ y, y ≠ p.2.subject → contents t y = contents p.1 y := by
  have hrun := Lts.Run.of_trace (M := (program fun x y : ℤ => decide (x < y)).lts)
    (f := (program fun x y : ℤ => decide (x < y)).tryStep) Program.tryStep_step (s := empty)
    (l := [.construct 0 1 ⟨10, fun _ => 0⟩, .append 0 5 ⟨11, fun _ => 0⟩,
      .copyConstruct 1 0 ⟨12, fun _ => 0⟩, .sort 1, .destroy 0]) rfl
  refine ⟨_, _, hrun, rfl, (run_separate_iff hrun).mpr ?_⟩
  intro p hp x v h
  fin_cases hp <;> cases h

/-- Two Vectors have one buffer after `v2 = v1`. -/
theorem not_run_separate : ¬ ∀ (l : List (Vectors ℤ × Op ℤ)) (s : Vectors ℤ),
    (program fun x y => decide (x < y)).lts.Run empty l s →
      (∀ t ∈ Lts.visited l s, Separate t) ∧
        ∀ p ∈ l, ∀ t, (program fun x y => decide (x < y)).lts.step p.1 p.2 t →
          ∀ y, y ≠ p.2.subject → contents t y = contents p.1 y := by
  intro h
  have hrun := Lts.Run.of_trace (M := (program fun x y : ℤ => decide (x < y)).lts)
    (f := (program fun x y : ℤ => decide (x < y)).tryStep) Program.tryStep_step (s := empty)
    (l := [.construct 0 4 ⟨10, fun _ => 0⟩, .construct 1 4 ⟨11, fun _ => 0⟩, .copyAssign 1 0]) rfl
  have hsep := (h _ _ hrun).1 _ (Lts.last_mem_visited _ _)
  exact absurd (hsep.unique 0 1 _ _ 10 rfl rfl rfl rfl) (by decide)

end Vectors

end Candcpp
