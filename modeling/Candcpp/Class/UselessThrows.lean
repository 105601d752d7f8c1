import Candcpp.Lts
import Candcpp.Class.Useless

/-!
# Objects whose `new` throws

What the objects of `Candcpp.Useless` are left like when an allocation fails. The constructors raise
the static counter before they allocate, and where `new` throws there is no object that would lower
it again. The copy assignment deletes the old buffer before it allocates the new one, and there the
object is left with a pointer to the buffer that is gone.

A state is *valid* if the counter counts the objects, the buffers are partitioned among them, and
the buffer of each object can be deleted (`Candcpp.Useless.Valid`): that is what the destructor and
the assignments begin with. **In a run all states are valid exactly if `new` never throws, but in an
assignment of an object without characters to one without a buffer**
(`Candcpp.Useless.run_valid_iff`).
-/

namespace Candcpp

open Cpp

namespace UselessObjects

/-! ### The code, up to the `new` that throws -/

/-- A constructor, or the one that `operator+` calls. -/
def constructThrows (s : UselessObjects) : UselessObjects := { s with ct := s.ct + 1 }

/-- `Useless(f)`, the copy constructor. -/
def copyConstructThrows (s : UselessObjects) (f : Addr) : Exec UselessObjects := do
  let _ ← s.objs.read (some f)
  pure s.constructThrows

/-- `a + f`. -/
def plusThrows (s : UselessObjects) (a f : Addr) : Exec UselessObjects := do
  let v ← s.objs.read (some a)
  let g ← s.objs.read (some f)
  let _ ← int (v.n + g.n : ℕ)
  pure s.constructThrows

/-- `x = f`, the copy assignment: the pointer of `x` is still the old one. -/
def copyAssignThrows (s : UselessObjects) (x f : Addr) : Exec UselessObjects := do
  if x = f then
    pure s
  else
    let v ← s.objs.read (some x)
    let heap ← s.heap.delete v.pc
    let g ← s.objs.read (some f)
    pure { s with objs := s.objs.set x { n := g.n, pc := v.pc }, heap := heap }

end UselessObjects

namespace Useless

/-- The operations, with what `new` does. -/
inductive Call
  /-- `new` returns, or is not called. -/
  | returns (a : Act) : Call
  /-- `Useless(k)`, and `new` throws. -/
  | constructInt (k : ℤ) : Call
  /-- `Useless(k, ch)`, and `new` throws. -/
  | constructIntChar (k : ℤ) (ch : Int8) : Call
  /-- `Useless(f)`, and `new` throws. -/
  | copyConstruct (f : Addr) : Call
  /-- `a + f`, and `new` throws. -/
  | plus (a f : Addr) : Call
  /-- `x = f`, and `new` throws. -/
  | copyAssign (x f : Addr) : Call

namespace Call

/-- The objects that are used are alive. -/
def Allowed (s : UselessObjects) : Call → Prop
  | returns a => allowed s a
  | constructInt k => intMin ≤ k ∧ k ≤ intMax
  | constructIntChar k _ => intMin ≤ k ∧ k ≤ intMax
  | copyConstruct f => s.objs f ≠ none
  | plus a f => s.objs a ≠ none ∧ s.objs f ≠ none
  | copyAssign x f => s.objs x ≠ none ∧ s.objs f ≠ none

/-- What the operations do. -/
def exec (s : UselessObjects) : Call → Exec UselessObjects
  | returns a => Useless.exec s a
  | constructInt _ => pure s.constructThrows
  | constructIntChar _ _ => pure s.constructThrows
  | copyConstruct f => s.copyConstructThrows f
  | plus a f => s.plusThrows a f
  | copyAssign x f => s.copyAssignThrows x f

end Call

/-- Programs that use objects, where `new` may throw. -/
def program : Program UselessObjects Call where
  init := fun s => s = .empty
  allowed := Call.Allowed
  exec := Call.exec

/-- **A valid state**: the counter and the buffers are as they should be, and each object can be
destroyed. -/
structure Valid (s : UselessObjects) : Prop extends WellOwned s where
  deletes : ∀ x v, s.objs x = some v → ∃ heap, s.heap.delete v.pc = pure heap

/-- `new` does not throw, or it does so in an assignment of an object without characters to one
without a buffer, or of an object to itself, which allocates nothing. -/
def Harmless (s : UselessObjects) : Call → Prop
  | .returns _ => True
  | .copyAssign x f =>
    x = f ∨ ((s.objs x).bind Useless.pc = none ∧ (s.objs f).map Useless.n = some 0)
  | _ => False

variable {s s' : UselessObjects} {xs : Strings} {x f : Addr} {v g : Useless} {l : List Int8}
  {b : Block Int8}

/-- **The assignment goes on** from where it could have thrown. -/
theorem copyAssign_eq (hxf : x ≠ f) (hf : s.objs f = some g) : s.copyAssign x f b = (do
    let s ← s.copyAssignThrows x f
    let heap ← (s.heap.alloc b g.n).copyTo g.pc (some b.addr) 0 g.n
    pure { s with objs := s.objs.set x { n := g.n, pc := some b.addr }, heap := heap }) := by
  rw [UselessObjects.copyAssign, UselessObjects.copyAssignThrows, if_neg hxf, if_neg hxf]
  simp only [bind_assoc, pure_bind, Mem.read_some hf, Mem.set_set]

theorem Represents.valid (h : Represents s xs) : Valid s where
  toWellOwned := h.wellOwned
  deletes := fun x v hx => by
    obtain ⟨w, l, hw, hp, -, -, -⟩ := h.exists_object (hx ▸ Option.some_ne_none v)
    obtain rfl := Option.some.inj (hw.symm.trans hx)
    obtain ⟨heap, hdelete, -⟩ := h.owners.delete hp
    exact ⟨heap, hdelete⟩

/-! ### Where `new` throws -/

/-- An object without a buffer has no characters. -/
theorem Represents.eq_empty (h : Represents s xs) (hx : s.objs x = some v) (hpc : v.pc = none) :
    v = { n := 0, pc := none } := by
  obtain ⟨w, l, hw, -, -, hn, hholds⟩ := h.exists_object (hx ▸ Option.some_ne_none v)
  obtain rfl := Option.some.inj (hw.symm.trans hx)
  rw [hpc] at hholds
  obtain rfl : l = [] := hholds
  obtain ⟨n, pc⟩ := w
  obtain rfl : pc = none := hpc
  obtain rfl : n = 0 := hn
  rfl

/-- **A harmless assignment** leaves the objects as they were. -/
theorem copyAssignThrows_eq (h : Represents s xs) (hx : s.objs x ≠ none)
    (hgood : Harmless s (.copyAssign x f)) : s.copyAssignThrows x f = pure s := by
  rw [UselessObjects.copyAssignThrows]
  by_cases hxf : x = f
  · rw [if_pos hxf]
  obtain ⟨hpc, hn⟩ := hgood.resolve_left hxf
  obtain ⟨v, hv⟩ := Option.ne_none_iff_exists'.mp hx
  obtain ⟨g, hg, hn⟩ := Option.map_eq_some_iff.mp hn
  rw [hv, Option.bind_some] at hpc
  obtain rfl := h.eq_empty hv hpc
  rw [if_neg hxf, Mem.read_some hv, pure_bind, Mem.delete, pure_bind, Mem.read_some hg, pure_bind,
    hn, Mem.set_eq_self hv]

/-- A sum that is computed is the value of an `int`. -/
theorem newSucceeds_of_exec (h : Represents s xs) {a : Act} (hr : exec s a = pure s') :
    NewSucceeds xs a := by
  cases a with
  | plus r a f b t =>
    intro l l' hl hl'
    obtain ⟨v, hread, hr⟩ := Exec.bind_eq_pure.mp hr
    obtain ⟨g, hread', hr⟩ := Exec.bind_eq_pure.mp hr
    obtain ⟨k, hk, -⟩ := Exec.bind_eq_pure.mp hr
    rw [h.accounts.size_eq (Mem.eq_some_of_read hread) hl,
      h.accounts.size_eq (Mem.eq_some_of_read hread') hl'] at hk
    exact (int_eq_pure.mp hk).1.2
  | _ => trivial

/-- **A step that is harmless** keeps the objects as they should be. -/
theorem Represents.step (h : Represents s xs) {c : Call} (hall : c.Allowed s)
    (hr : c.exec s = pure s') (hgood : Harmless s c) : ∃ xs', Represents s' xs' := by
  cases c with
  | returns a =>
    obtain ⟨s'', hexec, h''⟩ := exec_represents h hall (newSucceeds_of_exec h hr)
    exact ⟨_, Exec.pure_unique hexec hr ▸ h''⟩
  | copyAssign x f =>
    obtain rfl := Exec.pure_unique (copyAssignThrows_eq h hall.1 hgood) hr
    exact ⟨xs, h⟩
  | _ => exact hgood.elim

/-- The counter is one too high after a constructor has thrown. -/
theorem not_valid_constructThrows (h : Valid s) : ¬ Valid s.constructThrows := by
  intro h'
  obtain ⟨live, hlive, hct⟩ := h.ct_eq
  obtain ⟨live', hlive', hct'⟩ := h'.ct_eq
  have heq : live' = live := by
    ext x
    exact (hlive' x).trans (hlive x).symm
  rw [heq, ← hct] at hct'
  exact absurd hct' (by simp [UselessObjects.constructThrows])

/-- **After an assignment that is not harmless** the object has characters and no buffer, or a
pointer to the buffer that has been deleted. -/
theorem not_valid_copyAssignThrows (hr : s.copyAssignThrows x f = pure s')
    (hbad : ¬ Harmless s (.copyAssign x f)) : ¬ Valid s' := by
  intro h'
  obtain ⟨hxf, hbad⟩ := not_or.mp hbad
  rw [UselessObjects.copyAssignThrows, if_neg hxf] at hr
  obtain ⟨v, hread, hr⟩ := Exec.bind_eq_pure.mp hr
  obtain ⟨heap, hdelete, hr⟩ := Exec.bind_eq_pure.mp hr
  obtain ⟨g, hread', hr⟩ := Exec.bind_eq_pure.mp hr
  obtain rfl := Exec.pure_inj.mp hr
  rw [Mem.eq_some_of_read hread, Mem.eq_some_of_read hread', Option.bind_some,
    Option.map_some] at hbad
  have hx := Mem.set_self s.objs x { n := g.n, pc := v.pc }
  cases hpc : v.pc with
  | none =>
    rcases h'.sole x _ hx with hn | ⟨a, -, ha, -⟩
    · exact hbad ⟨hpc, congrArg some hn⟩
    · exact absurd (hpc.symm.trans ha) (by simp)
  | some a =>
    obtain ⟨heap', hdelete'⟩ := h'.deletes x _ hx
    -- the first deletion has removed the buffer
    have hgone : heap a = none := free_of_delete hdelete (.inr hpc)
    dsimp only at hdelete'
    rw [hpc, Mem.delete, hgone] at hdelete'
    exact Exec.pure_ne_throw _ _ hdelete'.symm

/-- **In a run the counter is the number of the objects, each buffer has one owner and can be
deleted**, exactly if `new` throws only where that is harmless. -/
theorem run_valid_iff {l : List (UselessObjects × Call)} (hl : program.lts.Run .empty l s) :
    (∀ t ∈ Lts.visited l s, Valid t) ↔ ∀ p ∈ l, Harmless p.1 p.2 := by
  constructor
  · rintro hvalid ⟨t, c⟩ hp
    -- a failure that is not harmless leaves a state that is not valid
    by_contra hbad
    obtain ⟨t', hstep, ht'⟩ := hl.next hp
    have ht : Valid t := hvalid t (Lts.mem_visited hp _)
    have hr : c.exec t = pure t' := hstep.2
    cases c with
    | returns a => exact hbad trivial
    | copyAssign x f => exact not_valid_copyAssignThrows hr hbad (hvalid t' ht')
    | constructInt k =>
      obtain rfl := Exec.pure_inj.mp hr
      exact not_valid_constructThrows ht (hvalid _ ht')
    | constructIntChar k ch =>
      obtain rfl := Exec.pure_inj.mp hr
      exact not_valid_constructThrows ht (hvalid _ ht')
    | copyConstruct f =>
      obtain ⟨g, -, hr⟩ := Exec.bind_eq_pure.mp hr
      obtain rfl := Exec.pure_inj.mp hr
      exact not_valid_constructThrows ht (hvalid _ ht')
    | plus a f =>
      obtain ⟨v, -, hr⟩ := Exec.bind_eq_pure.mp hr
      obtain ⟨g, -, hr⟩ := Exec.bind_eq_pure.mp hr
      obtain ⟨k, -, hr⟩ := Exec.bind_eq_pure.mp hr
      obtain rfl := Exec.pure_inj.mp hr
      exact not_valid_constructThrows ht (hvalid _ ht')
  · intro hgood t ht
    have hinv : ∀ t ∈ Lts.visited l s, ∃ xs, Represents t xs := by
      refine hl.invariant ⟨_, represents_empty⟩ ?_
      rintro p hp t' ⟨xs, h⟩ hstep
      exact h.step hstep.1 hstep.2 (hgood p hp)
    obtain ⟨xs, h⟩ := hinv t ht
    exact h.valid

/-- An assignment of one object without a buffer to another one throws. -/
theorem run_valid_iff_three : ∃ l s, program.lts.Run .empty l s ∧ s.ct = 2 ∧
    .copyAssign 0 1 ∈ l.map Prod.snd ∧ ∀ t ∈ Lts.visited l s, Valid t := by
  have h₁ : program.lts.Run .empty _ _ :=
    Lts.Run.nil.snoc (a := Call.returns (.construct 0)) ⟨rfl, rfl⟩
  have h₂ := h₁.snoc (a := Call.returns (.construct 1)) ⟨rfl, rfl⟩
  have h₃ := h₂.snoc (a := Call.copyAssign 0 1) ⟨⟨by decide, by decide⟩, rfl⟩
  refine ⟨_, _, h₃, rfl, by simp, (run_valid_iff h₃).mpr ?_⟩
  simp only [List.nil_append, List.cons_append, List.forall_mem_cons]
  exact ⟨trivial, trivial, .inr ⟨rfl, rfl⟩, List.forall_mem_nil _⟩

/-- After an assignment that throws, the object has a pointer to the buffer that has been
deleted. -/
theorem not_run_valid : ¬ ∀ (l : List (UselessObjects × Call)) (s : UselessObjects),
    program.lts.Run .empty l s → ∀ t ∈ Lts.visited l s, Valid t := by
  intro h
  have h₁ : program.lts.Run .empty _ _ := Lts.Run.nil.snoc
    (a := Call.returns (.constructInt 0 1 ⟨10, fun _ => 0⟩)) ⟨⟨rfl, by decide, rfl⟩, rfl⟩
  have h₂ := h₁.snoc
    (a := Call.returns (.constructInt 1 1 ⟨11, fun _ => 0⟩)) ⟨⟨rfl, by decide, rfl⟩, rfl⟩
  have h₃ := h₂.snoc (a := Call.copyAssign 0 1) ⟨⟨by decide, by decide⟩, rfl⟩
  have hvalid := h _ _ h₃ _ (Lts.last_mem_visited _ _)
  obtain ⟨heap, hdelete⟩ := hvalid.deletes 0 _ rfl
  exact Exec.pure_ne_throw heap .dangling hdelete.symm

end Useless

end Candcpp
