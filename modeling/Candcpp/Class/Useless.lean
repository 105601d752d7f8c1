import Candcpp.Object
import Candcpp.Cpp.Owners

/-!
# Objects that copy, move and drop a buffer

The class `Useless` of `useless.cpp`: a number of characters in a buffer of its own, and a static
counter of the objects. Objects are made in five ways, assigned in two, added and destroyed
(`Candcpp.Useless.object`), in any order and with any aliasing.

What the objects stand for is simple: each one that is alive holds a string of characters
(`Candcpp.Useless.model`). **Every sequence of operations returns**, with the strings of the model;
the counter is the number of the objects, and the buffers are partitioned among them
(`Candcpp.Useless.calls_wellOwned`). It is proved by following the code with the rules of
`Candcpp.Cpp.Owners`, one for each thing that happens to a buffer.

The numbers of characters are values of an `int` that are not negative. What `new` returns is a
`Candcpp.Cpp.Block`, whose address was free; a sum of two numbers that is beyond `int` is no length
that `new` can be asked for (`Candcpp.Useless.NewSucceeds`). What the methods print is left out.
-/

namespace Candcpp

open Cpp

/-- `class Useless`. -/
structure Useless where
  n : ℕ
  pc : Ptr
  deriving DecidableEq, Repr

/-- The objects of the class, the buffers, and the static counter. -/
structure UselessObjects where
  objs : Mem Useless
  heap : Mem (Arr Int8)
  ct : ℤ

namespace UselessObjects

/-! ### The code -/

/-- The program before any object is made. -/
def empty : UselessObjects where
  objs := fun _ => none
  heap := fun _ => none
  ct := 0

/-- `Useless()`, at the address `x`. -/
def construct (s : UselessObjects) (x : Addr) : UselessObjects where
  objs := s.objs.set x { n := 0, pc := none }
  heap := s.heap
  ct := s.ct + 1

/-- `Useless(k)`. -/
def constructInt (s : UselessObjects) (x : Addr) (k : ℕ) (b : Block Int8) : UselessObjects where
  objs := s.objs.set x { n := k, pc := some b.addr }
  heap := s.heap.alloc b k
  ct := s.ct + 1

/-- `Useless(k, ch)`. -/
def constructIntChar (s : UselessObjects) (x : Addr) (k : ℕ) (ch : Int8) (b : Block Int8) :
    Exec UselessObjects := do
  let heap ← (s.heap.alloc b k).fillTo (some b.addr) ch k
  pure { objs := s.objs.set x { n := k, pc := some b.addr }, heap := heap, ct := s.ct + 1 }

/-- `Useless(f)`, the copy constructor. -/
def copyConstruct (s : UselessObjects) (x f : Addr) (b : Block Int8) : Exec UselessObjects := do
  let g ← s.objs.read (some f)
  let heap ← (s.heap.alloc b g.n).copyTo g.pc (some b.addr) 0 g.n
  pure { objs := s.objs.set x { n := g.n, pc := some b.addr }, heap := heap, ct := s.ct + 1 }

/-- `Useless(std::move(f))`, the move constructor. -/
def moveConstruct (s : UselessObjects) (x f : Addr) : Exec UselessObjects := do
  let g ← s.objs.read (some f)
  pure { objs := (s.objs.set x { n := g.n, pc := g.pc }).set f { n := 0, pc := none },
         heap := s.heap, ct := s.ct + 1 }

/-- `~Useless()`. -/
def destroy (s : UselessObjects) (x : Addr) : Exec UselessObjects := do
  let v ← s.objs.read (some x)
  let heap ← s.heap.delete v.pc
  pure { objs := s.objs.clear x, heap := heap, ct := s.ct - 1 }

/-- `a + f`, with the result at the address `r`. The local object `t` is the result itself, or it is
at an address of its own, from which `return t` moves it to the result. -/
def plus (s : UselessObjects) (r a f : Addr) (b : Block Int8) (t : Option Addr) :
    Exec UselessObjects := do
  let v ← s.objs.read (some a)
  let g ← s.objs.read (some f)
  let k ← int (v.n + g.n : ℕ)
  let s := s.constructInt (t.getD r) k.toNat b
  let heap ← s.heap.copyTo v.pc (some b.addr) 0 v.n
  let heap ← heap.copyTo g.pc (some b.addr) v.n (k.toNat - v.n)
  let s := { s with heap := heap }
  match t with
  | none => pure s
  | some t => do
    let s ← s.moveConstruct r t
    s.destroy t

/-- `x = f`, the copy assignment. -/
def copyAssign (s : UselessObjects) (x f : Addr) (b : Block Int8) : Exec UselessObjects := do
  if x = f then
    pure s
  else
    let v ← s.objs.read (some x)
    let heap ← s.heap.delete v.pc
    let g ← s.objs.read (some f)
    let heap ← (heap.alloc b g.n).copyTo g.pc (some b.addr) 0 g.n
    pure { s with objs := s.objs.set x { n := g.n, pc := some b.addr }, heap := heap }

/-- `x = std::move(f)`, the move assignment. -/
def moveAssign (s : UselessObjects) (x f : Addr) : Exec UselessObjects := do
  if x = f then
    pure s
  else
    let v ← s.objs.read (some x)
    let heap ← s.heap.delete v.pc
    let g ← s.objs.read (some f)
    pure { s with
      objs := (s.objs.set x { n := g.n, pc := g.pc }).set f { n := 0, pc := none }
      heap := heap }

end UselessObjects

namespace Useless

/-- The operations, with the addresses of the objects, and what `new` returns. -/
inductive Act
  /-- `Useless()`. -/
  | construct (x : Addr) : Act
  /-- `Useless(k)`. -/
  | constructInt (x : Addr) (k : ℕ) (b : Block Int8) : Act
  /-- `Useless(k, ch)`. -/
  | constructIntChar (x : Addr) (k : ℕ) (ch : Int8) (b : Block Int8) : Act
  /-- `Useless(f)`. -/
  | copyConstruct (x f : Addr) (b : Block Int8) : Act
  /-- `Useless(std::move(f))`. -/
  | moveConstruct (x f : Addr) : Act
  /-- `a + f`. -/
  | plus (r a f : Addr) (b : Block Int8) (t : Option Addr) : Act
  /-- `x = f`. -/
  | copyAssign (x f : Addr) (b : Block Int8) : Act
  /-- `x = std::move(f)`. -/
  | moveAssign (x f : Addr) : Act
  /-- `~Useless()`. -/
  | destroy (x : Addr) : Act

/-- An object that is made is new, and one that is used is alive; the lengths are values of an
`int`; what `new` returns was free, once the buffer that is deleted before is gone. -/
def allowed (s : UselessObjects) : Act → Prop
  | .construct x => s.objs x = none
  | .constructInt x k b => s.objs x = none ∧ (k : ℤ) ≤ intMax ∧ s.heap b.addr = none
  | .constructIntChar x k _ b => s.objs x = none ∧ (k : ℤ) ≤ intMax ∧ s.heap b.addr = none
  | .copyConstruct x f b => s.objs x = none ∧ s.objs f ≠ none ∧ s.heap b.addr = none
  | .moveConstruct x f => s.objs x = none ∧ s.objs f ≠ none
  | .plus r a f b t => s.objs r = none ∧ s.objs a ≠ none ∧ s.objs f ≠ none ∧
      s.heap b.addr = none ∧ ∀ t' ∈ t, s.objs t' = none ∧ t' ≠ r
  | .copyAssign x f b => s.objs x ≠ none ∧ s.objs f ≠ none ∧
      (s.heap b.addr = none ∨ (s.objs x).map Useless.pc = some (some b.addr))
  | .moveAssign x f => s.objs x ≠ none ∧ s.objs f ≠ none
  | .destroy x => s.objs x ≠ none

/-- What the operations do. -/
def exec (s : UselessObjects) : Act → Exec UselessObjects
  | .construct x => pure (s.construct x)
  | .constructInt x k b => pure (s.constructInt x k b)
  | .constructIntChar x k ch b => s.constructIntChar x k ch b
  | .copyConstruct x f b => s.copyConstruct x f b
  | .moveConstruct x f => s.moveConstruct x f
  | .plus r a f b t => s.plus r a f b t
  | .copyAssign x f b => s.copyAssign x f b
  | .moveAssign x f => s.moveAssign x f
  | .destroy x => s.destroy x

/-- The objects, under the operations. -/
def object : Object UselessObjects Act Unit where
  allowed := allowed
  exec := fun s a => do
    let s ← exec s a
    pure ((), s)

/-- The strings that the objects hold. -/
abbrev Strings := Addr → Option (List Int8)

/-- What the operations do to the strings: a copy is equal to what is copied, an object that
something is moved from is empty, and a sum is one string after the other. -/
def next (xs : Strings) : Act → Strings
  | .construct x => Function.update xs x (some [])
  | .constructInt x k b => Function.update xs x (some ((List.range k).map b.junk))
  | .constructIntChar x k ch _ => Function.update xs x (some (List.replicate k ch))
  | .copyConstruct x f _ => Function.update xs x (xs f)
  | .moveConstruct x f => Function.update (Function.update xs x (xs f)) f (some [])
  | .plus r a f _ _ =>
    Function.update xs r ((xs a).bind fun l => (xs f).map fun l' => l ++ l')
  | .copyAssign x f _ => Function.update xs x (xs f)
  | .moveAssign x f =>
    if x = f then xs else Function.update (Function.update xs x (xs f)) f (some [])
  | .destroy x => Function.update xs x none

/-- The strings, as a model of the objects. -/
def model : Model Strings Act Unit where
  answer := fun _ _ => ()
  next := next

/-- The length of a sum is one that `new` can be asked for. -/
def NewSucceeds (xs : Strings) : Act → Prop
  | .plus _ a f _ _ => ∀ l l', xs a = some l → xs f = some l' →
      ((l.length + l'.length : ℕ) : ℤ) ≤ intMax
  | _ => True

/-- The string that an object holds. -/
def content (heap : Mem (Arr Int8)) (v : Useless) : List Int8 :=
  ((v.pc.bind heap).map Arr.toList).getD []

/-- The strings that the objects hold. -/
def contents (s : UselessObjects) : Strings := fun x => (s.objs x).map (content s.heap)

/-- **The buffers are partitioned among the objects**, and the counter counts these. -/
structure WellOwned (s : UselessObjects) : Prop where
  ct_eq : ∃ live : Finset Addr, (∀ x, x ∈ live ↔ s.objs x ≠ none) ∧ s.ct = live.card
  sole : ∀ x v, s.objs x = some v → v.n = 0 ∨ ∃ a arr, v.pc = some a ∧ s.heap a = some arr ∧
    arr.size = v.n ∧ ∀ y w, s.objs y = some w → w.pc = some a → y = x
  owned : ∀ a arr, s.heap a = some arr → ∃ x v, s.objs x = some v ∧ v.pc = some a

/-! ### The lengths, and the counter -/

variable {objs : Mem Useless} {xs : Strings} {ct : ℤ} {x f : Addr} {v w : Useless}
  {l : List Int8}

/-- The objects hold strings of their length, which is the value of an `int`, and are counted. -/
structure Accounts (objs : Mem Useless) (xs : Strings) (ct : ℤ) : Prop where
  sizes : Option.map Useless.n ∘ objs = Option.map List.length ∘ xs
  small : ∀ x l, xs x = some l → (l.length : ℤ) ≤ intMax
  count : ∃ live : Finset Addr, (∀ x, x ∈ live ↔ objs x ≠ none) ∧ ct = live.card

theorem accounts_empty : Accounts (fun _ => none) (fun _ => none) 0 where
  sizes := rfl
  small := fun _ _ h => nomatch h
  count := ⟨∅, fun _ => by simp, rfl⟩

theorem Accounts.size_eq (h : Accounts objs xs ct) (hx : objs x = some v) (hl : xs x = some l) :
    v.n = l.length := by
  have hsize := congrFun h.sizes x
  rw [Function.comp_apply, Function.comp_apply, hx, hl] at hsize
  exact Option.some.inj hsize

theorem sizes_set (h : Accounts objs xs ct) (x : Addr) (hn : v.n = l.length) :
    Option.map Useless.n ∘ objs.set x v =
      Option.map List.length ∘ Function.update xs x (some l) := by
  rw [Mem.set, Function.comp_update, Function.comp_update, h.sizes, Option.map_some,
    Option.map_some, hn]

theorem small_update (h : Accounts objs xs ct) (x : Addr) (hl : (l.length : ℤ) ≤ intMax) :
    ∀ y l', Function.update xs x (some l) y = some l' → (l'.length : ℤ) ≤ intMax := by
  intro y l' hy
  by_cases hyx : y = x
  · subst hyx
    rw [Function.update_self] at hy
    rwa [← Option.some.inj hy]
  · rw [Function.update_of_ne hyx] at hy
    exact h.small y l' hy

/-- An object is made. -/
theorem Accounts.made (h : Accounts objs xs ct) (hx : objs x = none) (hn : v.n = l.length)
    (hl : (l.length : ℤ) ≤ intMax) :
    Accounts (objs.set x v) (Function.update xs x (some l)) (ct + 1) := by
  obtain ⟨live, hlive, hct⟩ := h.count
  have hxl : x ∉ live := fun hmem => (hlive x).mp hmem hx
  refine ⟨sizes_set h x hn, small_update h x hl, insert x live, fun y => ?_, ?_⟩
  · rw [Finset.mem_insert, hlive]
    by_cases hy : y = x
    · subst hy
      simp
    · rw [Mem.set_of_ne objs v hy, or_iff_right hy]
  · rw [Finset.card_insert_of_notMem hxl, hct]
    push_cast
    rfl

/-- An object is changed. -/
theorem Accounts.changed (h : Accounts objs xs ct) (hx : objs x ≠ none) (hn : v.n = l.length)
    (hl : (l.length : ℤ) ≤ intMax) :
    Accounts (objs.set x v) (Function.update xs x (some l)) ct := by
  obtain ⟨live, hlive, hct⟩ := h.count
  refine ⟨sizes_set h x hn, small_update h x hl, live, fun y => ?_, hct⟩
  rw [hlive]
  by_cases hy : y = x
  · subst hy
    simp [hx]
  · rw [Mem.set_of_ne objs v hy]

/-- An object is destroyed. -/
theorem Accounts.gone (h : Accounts objs xs ct) (hx : objs x ≠ none) :
    Accounts (objs.clear x) (Function.update xs x none) (ct - 1) := by
  obtain ⟨live, hlive, hct⟩ := h.count
  have hxl : x ∈ live := (hlive x).mpr hx
  refine ⟨?_, ?_, live.erase x, fun y => ?_, ?_⟩
  · rw [Mem.clear, Function.comp_update, Function.comp_update, h.sizes]
    rfl
  · intro y l hy
    by_cases hyx : y = x
    · subst hyx
      rw [Function.update_self] at hy
      cases hy
    · rw [Function.update_of_ne hyx] at hy
      exact h.small y l hy
  · rw [Finset.mem_erase, hlive]
    by_cases hy : y = x
    · subst hy
      simp
    · rw [Mem.clear_of_ne objs hy, and_iff_right hy]
  · have hpos := Finset.card_pos.mpr ⟨x, hxl⟩
    rw [Finset.card_erase_of_mem hxl, hct]
    omega

/-! ### What the objects stand for -/

/-- The pointers of the objects that are alive. -/
def ptr (objs : Mem Useless) : Addr → Option Ptr := Option.map Useless.pc ∘ objs

@[simp] theorem ptr_apply (objs : Mem Useless) (x : Addr) :
    ptr objs x = (objs x).map Useless.pc := rfl

/-- **The objects own the buffers**, in which the strings stand. -/
structure Represents (s : UselessObjects) (xs : Strings) : Prop where
  owners : Owners s.heap (ptr s.objs) xs
  accounts : Accounts s.objs xs s.ct

variable {s : UselessObjects} {heap : Mem (Arr Int8)} {b : Block Int8}

theorem represents_empty : Represents .empty fun _ => none where
  owners := Owners.empty
  accounts := accounts_empty

/-- An object that is alive, and its string. -/
theorem Represents.exists_object (h : Represents s xs) (hx : s.objs x ≠ none) :
    ∃ v l, s.objs x = some v ∧ ptr s.objs x = some v.pc ∧ xs x = some l ∧ v.n = l.length ∧
      Holds s.heap v.pc l := by
  obtain ⟨v, hv⟩ := Option.ne_none_iff_exists'.mp hx
  have hp : ptr s.objs x = some v.pc := by simp [hv]
  obtain ⟨l, hl, hholds⟩ := h.owners.exists_val hp
  exact ⟨v, l, hv, hp, hl, h.accounts.size_eq hv hl, hholds⟩

/-- An object that is not alive holds no string. -/
theorem Represents.dead (h : Represents s xs) (hx : s.objs x = none) : xs x = none :=
  h.owners.val_eq_none (by simp [hx])

theorem Represents.alive (h : Represents s xs) (hl : xs x = some l) : s.objs x ≠ none := by
  intro hx
  rw [h.dead hx] at hl
  cases hl

/-- What an object that is not alive may be given. -/
theorem bare_of_dead (hx : s.objs x = none) : Owners.Bare (ptr s.objs) x :=
  Owners.bare_of_none (by simp [hx])

theorem ptr_set (objs : Mem Useless) (x : Addr) (v : Useless) :
    ptr (objs.set x v) = Function.update (ptr objs) x (some v.pc) :=
  Function.comp_update (Option.map Useless.pc) objs x (some v)

theorem ptr_clear (objs : Mem Useless) (x : Addr) :
    ptr (objs.clear x) = Function.update (ptr objs) x none :=
  Function.comp_update (Option.map Useless.pc) objs x none

/-- **The buffers are partitioned** among objects that represent strings. -/
theorem Represents.wellOwned (h : Represents s xs) : WellOwned s where
  ct_eq := h.accounts.count
  sole := fun x v hx => by
    obtain ⟨w, l, hw, hp, -, hn, hholds⟩ := h.exists_object (hx ▸ Option.some_ne_none v)
    obtain rfl := Option.some.inj (hw.symm.trans hx)
    cases hpc : w.pc with
    | none =>
      rw [hpc] at hholds
      rw [hn, show l = [] from hholds]
      exact .inl rfl
    | some a =>
      rw [hpc] at hholds hp
      obtain ⟨arr, harr, rfl⟩ := hholds
      refine .inr ⟨a, arr, rfl, harr, by rw [hn, Arr.length_toList], fun y u hy hu => ?_⟩
      exact h.owners.unique y x a (by simp [hy, hu]) hp
  owned := fun a arr ha => by
    obtain ⟨x, hx⟩ := h.owners.owned a arr ha
    obtain ⟨v, hv, hpc⟩ := Option.map_eq_some_iff.mp hx
    exact ⟨x, v, hv, hpc⟩

/-- **The contents** of the objects are the strings that they represent. -/
theorem Represents.contents_eq (h : Represents s xs) : contents s = xs := by
  ext x : 1
  cases hx : s.objs x with
  | none =>
    rw [contents, hx, Option.map_none, h.dead hx]
  | some v =>
    obtain ⟨w, l, hw, -, hl, -, hholds⟩ := h.exists_object (hx ▸ Option.some_ne_none v)
    obtain rfl := Option.some.inj (hw.symm.trans hx)
    rw [contents, hx, Option.map_some, hl, content]
    cases hpc : w.pc with
    | none =>
      rw [hpc] at hholds
      rw [show l = [] from hholds]
      rfl
    | some a =>
      rw [hpc] at hholds
      obtain ⟨arr, harr, rfl⟩ := hholds
      rw [Option.bind_some, harr]
      rfl

/-! ### The operations -/

theorem represents_construct (h : Represents s xs) (hx : s.objs x = none) :
    Represents (s.construct x) (Function.update xs x (some [])) where
  owners := by
    rw [UselessObjects.construct, ptr_set]
    exact h.owners.born (bare_of_dead hx)
  accounts := h.accounts.made hx rfl (by decide)

/-- An object is made with a new buffer. -/
theorem represents_made (h : Represents s xs) (hx : s.objs x = none) (hb : s.heap b.addr = none)
    (arr : Arr Int8) {k : ℕ} (hl : arr.toList = l) (hk : k = l.length)
    (hint : (l.length : ℤ) ≤ intMax) :
    Represents { objs := s.objs.set x { n := k, pc := some b.addr }, heap := s.heap.set b.addr arr,
                 ct := s.ct + 1 } (Function.update xs x (some l)) where
  owners := by
    rw [ptr_set, ← hl]
    exact h.owners.alloc (bare_of_dead hx) hb arr
  accounts := h.accounts.made hx hk hint

theorem represents_constructInt (h : Represents s xs) (hx : s.objs x = none)
    (hb : s.heap b.addr = none) {k : ℕ} (hk : (k : ℤ) ≤ intMax) :
    Represents (s.constructInt x k b) (Function.update xs x (some ((List.range k).map b.junk))) :=
  represents_made h hx hb _ rfl (by rw [List.length_map, List.length_range])
    (by rwa [List.length_map, List.length_range])

theorem exec_constructIntChar (h : Represents s xs) (hx : s.objs x = none)
    (hb : s.heap b.addr = none) {k : ℕ} (hk : (k : ℤ) ≤ intMax) (ch : Int8) :
    ∃ s', s.constructIntChar x k ch b = pure s' ∧
      Represents s' (Function.update xs x (some (List.replicate k ch))) := by
  have hfill := Mem.fillTo_eq (x := ch) (Mem.set_self s.heap b.addr ⟨b.junk, k⟩) le_rfl hk
  rw [Mem.set_set] at hfill
  refine ⟨_, ?_, represents_made h hx hb ⟨fun i => if i < k then ch else b.junk i, k⟩
    ?_ (List.length_replicate ..).symm (by rwa [List.length_replicate])⟩
  · rw [UselessObjects.constructIntChar, Mem.alloc, hfill, pure_bind]
  · refine List.eq_replicate_iff.mpr ⟨Arr.length_toList _, fun c hc => ?_⟩
    obtain ⟨i, hi, rfl⟩ := List.mem_map.mp hc
    exact if_pos (List.mem_range.mp hi)

theorem exec_copyConstruct (h : Represents s xs) (hx : s.objs x = none) (hf : s.objs f ≠ none)
    (hb : s.heap b.addr = none) :
    ∃ s', s.copyConstruct x f b = pure s' ∧ Represents s' (Function.update xs x (xs f)) := by
  obtain ⟨g, l, hg, -, hl, hn, hholds⟩ := h.exists_object hf
  have hint := h.accounts.small f l hl
  obtain ⟨arr, hcopy, harr⟩ := copyTo_new hholds hb hint
  rw [hl]
  refine ⟨_, ?_, represents_made h hx hb _ harr hn hint⟩
  rw [UselessObjects.copyConstruct, Mem.read_some hg, pure_bind, hn, hcopy, pure_bind]

theorem exec_moveConstruct (h : Represents s xs) (hx : s.objs x = none) (hf : s.objs f ≠ none) :
    ∃ s', s.moveConstruct x f = pure s' ∧
      Represents s' (Function.update (Function.update xs x (xs f)) f (some [])) := by
  obtain ⟨g, l, hg, hp, hl, hn, -⟩ := h.exists_object hf
  have hxf : x ≠ f := by
    rintro rfl
    exact hf hx
  rw [hl]
  refine ⟨_, by rw [UselessObjects.moveConstruct, Mem.read_some hg, pure_bind], ?_, ?_⟩
  · rw [ptr_set, ptr_set]
    exact h.owners.move hxf (bare_of_dead hx) hp hl
  · refine (h.accounts.made hx hn (h.accounts.small f l hl)).changed ?_ rfl (by decide)
    rwa [Mem.set_of_ne s.objs _ hxf.symm]

theorem exec_destroy (h : Represents s xs) (hx : s.objs x ≠ none) :
    ∃ s', s.destroy x = pure s' ∧ Represents s' (Function.update xs x none) := by
  obtain ⟨v, l, hv, hp, -, -, -⟩ := h.exists_object hx
  obtain ⟨heap, hdelete, hown⟩ := h.owners.release hp
  refine ⟨_, by rw [UselessObjects.destroy, Mem.read_some hv, pure_bind, hdelete, pure_bind],
    ?_, ?_⟩
  · rw [ptr_clear]
    exact hown
  · exact h.accounts.gone hx

/-- A free address stays free, and so does that of a buffer that is deleted. -/
theorem free_of_delete {heap' : Mem (Arr Int8)} {p : Ptr} {a : Addr}
    (hr : heap.delete p = pure heap') (ha : heap a = none ∨ p = some a) : heap' a = none := by
  match p, hr with
  | none, hr =>
    obtain rfl := Exec.pure_inj.mp hr
    exact ha.resolve_right (fun h => nomatch h)
  | some q, hr =>
    cases hq : heap q with
    | none =>
      simp only [Mem.delete, hq] at hr
      exact absurd hr.symm (Exec.pure_ne_throw _ _)
    | some arr =>
      rw [Mem.delete_some hq] at hr
      obtain rfl := Exec.pure_inj.mp hr
      by_cases haq : a = q
      · rw [haq, Mem.clear_self]
      · rw [Mem.clear_of_ne heap haq]
        exact ha.resolve_right fun h => haq (Option.some.inj h).symm

theorem exec_copyAssign (h : Represents s xs) (hx : s.objs x ≠ none) (hf : s.objs f ≠ none)
    (hb : s.heap b.addr = none ∨ (s.objs x).map Useless.pc = some (some b.addr)) :
    ∃ s', s.copyAssign x f b = pure s' ∧ Represents s' (Function.update xs x (xs f)) := by
  rw [UselessObjects.copyAssign]
  by_cases hxf : x = f
  · subst hxf
    rw [if_pos rfl, Function.update_eq_self]
    exact ⟨s, rfl, h⟩
  obtain ⟨v, -, hv, hp, -, -, -⟩ := h.exists_object hx
  obtain ⟨g, l, hg, hpf, hl, hn, -⟩ := h.exists_object hf
  have hint := h.accounts.small f l hl
  obtain ⟨heap, hdelete, hown⟩ := h.owners.delete hp
  have hfree : heap b.addr = none := by
    refine free_of_delete hdelete (hb.imp_right fun hb => ?_)
    rw [hv, Option.map_some] at hb
    exact Option.some.inj hb
  -- the buffer that is copied is not the one that has been deleted
  obtain ⟨l', hl', hholds⟩ := hown.exists_val ((Function.update_of_ne (Ne.symm hxf) _ _).trans hpf)
  rw [Function.update_of_ne (Ne.symm hxf), hl] at hl'
  obtain rfl := Option.some.inj hl'
  obtain ⟨arr, hcopy, harr⟩ := copyTo_new hholds hfree hint
  have halloc := hown.alloc (Owners.bare_update _ x) hfree arr
  rw [Function.update_idem, Function.update_idem, harr] at halloc
  rw [if_neg hxf, hl]
  refine ⟨_, by rw [Mem.read_some hv, pure_bind, hdelete, pure_bind, Mem.read_some hg, pure_bind,
    hn, hcopy, pure_bind], ?_, ?_⟩
  · rw [ptr_set]
    exact halloc
  · exact h.accounts.changed hx rfl hint

theorem exec_moveAssign (h : Represents s xs) (hx : s.objs x ≠ none) (hf : s.objs f ≠ none) :
    ∃ s', s.moveAssign x f = pure s' ∧ Represents s' (next xs (.moveAssign x f)) := by
  rw [UselessObjects.moveAssign, next]
  by_cases hxf : x = f
  · rw [if_pos hxf, if_pos hxf]
    exact ⟨s, rfl, h⟩
  obtain ⟨v, -, hv, hp, -, -, -⟩ := h.exists_object hx
  obtain ⟨g, l, hg, hpf, hl, hn, -⟩ := h.exists_object hf
  obtain ⟨heap, hdelete, hown⟩ := h.owners.delete hp
  have hmove := hown.move hxf (Owners.bare_update _ x)
    ((Function.update_of_ne (Ne.symm hxf) _ _).trans hpf)
    ((Function.update_of_ne (Ne.symm hxf) _ _).trans hl)
  rw [Function.update_idem, Function.update_idem] at hmove
  rw [if_neg hxf, if_neg hxf, hl]
  refine ⟨_, by rw [Mem.read_some hv, pure_bind, hdelete, pure_bind, Mem.read_some hg, pure_bind],
    ?_, ?_⟩
  · rw [ptr_set, ptr_set]
    exact hmove
  · refine (h.accounts.changed hx hn (h.accounts.small f l hl)).changed ?_ rfl (by decide)
    rwa [Mem.set_of_ne s.objs _ (Ne.symm hxf)]

/-- **The two loops of `operator+`** put one string after the other. -/
theorem copyTo_append {p q : Ptr} {l l' : List Int8} (hp : Holds heap p l) (hq : Holds heap q l')
    (hb : heap b.addr = none) (hint : ((l.length + l'.length : ℕ) : ℤ) ≤ intMax) :
    ∃ heap₁ arr,
      (heap.alloc b (l.length + l'.length)).copyTo p (some b.addr) 0 l.length = pure heap₁ ∧
      heap₁.copyTo q (some b.addr) l.length l'.length = pure (heap.set b.addr arr) ∧
      arr.toList = l ++ l' := by
  have hother : ∀ {p : Ptr} {l : List Int8} (arr : Arr Int8), Holds heap p l →
      Holds (heap.set b.addr arr) p l := fun arr h => h.congr fun a ha =>
    Mem.set_of_ne heap arr fun hab => h.ne_of_free hb (ha.trans (congrArg some hab))
  obtain ⟨arr₁, hcopy₁, hsize₁, -, hl₁⟩ := copyTo_holds 0 (hother _ hp)
    (Mem.set_self heap b.addr ⟨b.junk, l.length + l'.length⟩) (hp.ne_of_free hb)
    (by dsimp only; omega) (by omega)
  rw [Mem.set_set] at hcopy₁
  obtain ⟨arr₂, hcopy₂, hsize₂, hkeep, hl₂⟩ := copyTo_holds l.length (hother arr₁ hq)
    (Mem.set_self heap b.addr arr₁) (hq.ne_of_free hb) (by rw [hsize₁]) hint
  rw [Mem.set_set] at hcopy₂
  refine ⟨_, arr₂, hcopy₁, hcopy₂, ?_⟩
  rw [Arr.toList, hsize₂, hsize₁, List.range_add, List.map_append, List.map_map]
  refine congrArg₂ (· ++ ·) ?_ hl₂
  conv_rhs => rw [← hl₁]
  refine List.map_congr_left fun i hi => ?_
  rw [hkeep i (List.mem_range.mp hi), Nat.zero_add]

/-- The strings after the local object of `operator+` has been made, moved from and destroyed. -/
theorem update_moved {t r : Addr} (ht : xs t = none) (htr : t ≠ r) (o : Option (List Int8)) :
    Function.update (Function.update (Function.update (Function.update xs t o) r
      (Function.update xs t o t)) t (some [])) t none = Function.update xs r o := by
  ext y : 1
  by_cases hyt : y = t
  · subst hyt
    rw [Function.update_self, Function.update_of_ne htr, ht]
  · by_cases hyr : y = r
    · subst hyr
      simp [Ne.symm htr]
    · simp [hyt, hyr]

theorem exec_plus (h : Represents s xs) {r a : Addr} {t : Option Addr}
    (hall : allowed s (.plus r a f b t)) (hnew : NewSucceeds xs (.plus r a f b t)) :
    ∃ s', s.plus r a f b t = pure s' ∧ Represents s' (next xs (.plus r a f b t)) := by
  obtain ⟨hr, ha, hf, hb, ht⟩ := hall
  obtain ⟨v, l, hv, -, hl, hn, hholds⟩ := h.exists_object ha
  obtain ⟨g, l', hg, -, hl', hn', hholds'⟩ := h.exists_object hf
  have hint := hnew l l' hl hl'
  obtain ⟨heap₁, arr, hcopy₁, hcopy₂, harr⟩ := copyTo_append hholds hholds' hb hint
  have hlen : l.length + l'.length = (l ++ l').length := (List.length_append ..).symm
  rw [next, hl, hl', Option.bind_some, Option.map_some]
  have hdead : s.objs (t.getD r) = none := by
    cases t with
    | none => exact hr
    | some t => exact (ht t rfl).1
  have hmade := represents_made h hdead hb arr harr hlen (hlen ▸ hint)
  rw [UselessObjects.plus, Mem.read_some hv, pure_bind, Mem.read_some hg, pure_bind, hn, hn',
    Mem.int_natCast hint, pure_bind, Int.toNat_natCast]
  dsimp only [UselessObjects.constructInt]
  rw [hcopy₁, pure_bind, Nat.add_sub_cancel_left, hcopy₂, pure_bind]
  -- the result is moved out of a temporary object, or constructed in place
  cases t with
  | none => exact ⟨_, rfl, hmade⟩
  | some t =>
    obtain ⟨htdead, htr⟩ := ht t rfl
    obtain ⟨s₁, hmove, h₁⟩ := exec_moveConstruct (x := r) (f := t) hmade
      ((Mem.set_of_ne s.objs _ htr.symm).trans hr)
      (hmade.alive (Function.update_self ..))
    obtain ⟨s₂, hdestroy, h₂⟩ := exec_destroy h₁ (h₁.alive (Function.update_self ..))
    have hxt := h.dead htdead
    rw [Option.getD_some, update_moved hxt htr] at h₂
    refine ⟨s₂, ?_, h₂⟩
    dsimp only [Option.getD_some] at hmove ⊢
    rw [hmove, pure_bind, hdestroy]

/-- **Every operation returns**, and does to the strings what the model says. -/
theorem exec_represents (h : Represents s xs) {a : Act} (hall : allowed s a)
    (hnew : NewSucceeds xs a) : ∃ s', exec s a = pure s' ∧ Represents s' (next xs a) := by
  cases a with
  | construct x => exact ⟨_, rfl, represents_construct h hall⟩
  | constructInt x k b => exact ⟨_, rfl, represents_constructInt h hall.1 hall.2.2 hall.2.1⟩
  | constructIntChar x k ch b => exact exec_constructIntChar h hall.1 hall.2.2 hall.2.1 ch
  | copyConstruct x f b => exact exec_copyConstruct h hall.1 hall.2.1 hall.2.2
  | moveConstruct x f => exact exec_moveConstruct h hall.1 hall.2
  | plus r a f b t => exact exec_plus h hall hnew
  | copyAssign x f b => exact exec_copyAssign h hall.1 hall.2.1 hall.2.2
  | moveAssign x f => exact exec_moveAssign h hall.1 hall.2
  | destroy x => exact exec_destroy h hall

/-- **The objects simulate the strings**, as long as a sum is a length that `new` can be asked
for. -/
theorem simulates : object.Simulates model Represents NewSucceeds := by
  intro s xs a h hall hnew
  obtain ⟨s', hexec, h'⟩ := exec_represents h hall hnew
  refine ⟨s', ?_, h'⟩
  show (exec s a >>= _) = _
  rw [hexec, pure_bind]

end Useless

end Candcpp
