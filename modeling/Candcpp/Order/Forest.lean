import Mathlib

/-!
# Forests of parent pointers

A function `f` that gives each element its parent, where a root is its own parent. Following
`f` from an element leads to its root, if it leads anywhere
(`Candcpp.Forest.RootOf`), and linking a root below another one gives its root to all
the elements that had it (`Candcpp.Forest.RootOf.link`).

A forest stands for an equivalence relation: two elements are equivalent if they have the
same root. `Candcpp.Forest.Classes` says that this is the equivalence closure of a relation, and
`Candcpp.Forest.Classes.link` is what an algorithm that unites classes does: two elements
are related, and the root of the one is linked below the root of the other.
-/

namespace Candcpp

namespace Forest

variable {α : Type} {f : α → α} {a b c r r' : α}

/-! ### Roots -/

/-- **Following the parents** from `a` ends at the root `r`. -/
inductive RootOf (f : α → α) : α → α → Prop
  /-- A root is its own parent. -/
  | root {r : α} (h : f r = r) : RootOf f r r
  /-- The root of an element that is none is that of its parent. -/
  | step {a r : α} (hne : f a ≠ a) (h : RootOf f (f a) r) : RootOf f a r

theorem RootOf.isRoot (h : RootOf f a r) : f r = r := by
  induction h with
  | root h => exact h
  | step _ _ ih => exact ih

/-- There is only one root. -/
theorem RootOf.unique (h : RootOf f a r) (h' : RootOf f a r') : r = r' := by
  induction h with
  | root h =>
    cases h' with
    | root _ => rfl
    | step hne _ => exact absurd h hne
  | step hne _ ih =>
    cases h' with
    | root h => exact absurd h hne
    | step _ h' => exact ih h'

/-- The root is reached after finitely many steps. -/
theorem RootOf.iterate (h : RootOf f a r) : ∃ n, f^[n] a = r := by
  induction h with
  | root _ => exact ⟨0, rfl⟩
  | step _ _ ih =>
    obtain ⟨n, hn⟩ := ih
    exact ⟨n + 1, hn⟩

/-- A set that is closed under `f` has the roots of its elements. -/
theorem RootOf.mem {S : Set α} (hS : ∀ a ∈ S, f a ∈ S) (h : RootOf f a r) (ha : a ∈ S) : r ∈ S := by
  induction h with
  | root _ => exact ha
  | step _ _ ih => exact ih (hS _ ha)

/-- **A root is linked** below another one, which takes its place. -/
theorem RootOf.link [DecidableEq α] {x : α} (h : RootOf f a x) (hr : f r = r) (hc : f c = c)
    (hne : r ≠ c) : RootOf (Function.update f c r) a (if x = c then r else x) := by
  induction h with
  | @root x hx =>
    by_cases hxc : x = c
    · subst hxc
      rw [if_pos rfl]
      refine .step ?_ ?_
      · rwa [Function.update_self]
      · rw [Function.update_self]
        exact .root ((Function.update_of_ne hne _ _).trans hr)
    · rw [if_neg hxc]
      exact .root ((Function.update_of_ne hxc _ _).trans hx)
  | @step a x hstep _ ih =>
    have hac : a ≠ c := by
      rintro rfl
      exact hstep hc
    have ha : Function.update f c r a = f a := Function.update_of_ne hac _ _
    exact .step (ha.trans_ne hstep) (ha ▸ ih)

/-! ### Classes -/

open Relation

/-- A relation with one more pair. -/
def Adding (rel : α → α → Prop) (a b : α) : α → α → Prop :=
  fun x y => rel x y ∨ (x = a ∧ y = b)

variable {rel : α → α → Prop} {x y : α}

/-- **One more pair joins two classes.** -/
theorem eqvGen_adding : EqvGen (Adding rel a b) x y ↔
    EqvGen rel x y ∨ (EqvGen rel x a ∧ EqvGen rel b y) ∨ (EqvGen rel x b ∧ EqvGen rel a y) := by
  have hmono : ∀ {u v}, EqvGen rel u v → EqvGen (Adding rel a b) u v := fun h =>
    EqvGen.mono (fun _ _ => Or.inl) _ _ h
  have hnew : EqvGen (Adding rel a b) a b := .rel _ _ (Or.inr ⟨rfl, rfl⟩)
  constructor
  · intro h
    induction h with
    | rel x y h =>
      rcases h with h | ⟨rfl, rfl⟩
      · exact Or.inl (.rel _ _ h)
      · exact Or.inr (Or.inl ⟨.refl _, .refl _⟩)
    | refl x => exact Or.inl (.refl x)
    | symm x y _ ih =>
      rcases ih with h | ⟨h, h'⟩ | ⟨h, h'⟩
      · exact Or.inl (.symm _ _ h)
      · exact Or.inr (Or.inr ⟨.symm _ _ h', .symm _ _ h⟩)
      · exact Or.inr (Or.inl ⟨.symm _ _ h', .symm _ _ h⟩)
    | trans x y z _ _ ih ih' =>
      -- a path that takes the new edge twice can do without it
      rcases ih with h | ⟨h, h'⟩ | ⟨h, h'⟩ <;> rcases ih' with k | ⟨k, k'⟩ | ⟨k, k'⟩
      · exact Or.inl (.trans _ _ _ h k)
      · exact Or.inr (Or.inl ⟨.trans _ _ _ h k, k'⟩)
      · exact Or.inr (Or.inr ⟨.trans _ _ _ h k, k'⟩)
      · exact Or.inr (Or.inl ⟨h, .trans _ _ _ h' k⟩)
      · exact Or.inr (Or.inl ⟨h, k'⟩)
      · exact Or.inl (.trans _ _ _ h k')
      · exact Or.inr (Or.inr ⟨h, .trans _ _ _ h' k⟩)
      · exact Or.inl (.trans _ _ _ h k')
      · exact Or.inr (Or.inr ⟨h, k'⟩)
  · rintro (h | ⟨h, h'⟩ | ⟨h, h'⟩)
    · exact hmono h
    · exact .trans _ _ _ (hmono h) (.trans _ _ _ hnew (hmono h'))
    · exact .trans _ _ _ (hmono h) (.trans _ _ _ (.symm _ _ hnew) (hmono h'))

/-- Where nothing is related every element is a class of its own. -/
theorem eqvGen_empty : EqvGen (fun _ _ : α => False) x y ↔ x = y := by
  constructor
  · intro h
    induction h with
    | rel _ _ h => exact h.elim
    | refl _ => rfl
    | symm _ _ _ ih => exact ih.symm
    | trans _ _ _ _ _ ih ih' => exact ih.trans ih'
  · rintro rfl
    exact .refl x

/-- **Classes of an image.** Where `g` tells the elements of `S` apart, and the pairs of `rel` are
the images of the pairs of a symmetric relation on `S`, two images are in one class exactly if a
path leads from the one to the other. -/
theorem eqvGen_image {β : Type} {R : β → β → Prop} {S : Set β} {g : β → α} (hinj : Set.InjOn g S)
    (hsymm : ∀ c d, R c d → R d c) (hmem : ∀ c d, R c d → c ∈ S)
    (hsound : ∀ a b, rel a b → ∃ c d, R c d ∧ a = g c ∧ b = g d)
    (hcomplete : ∀ c d, R c d → EqvGen rel (g c) (g d)) {c d : β} (hc : c ∈ S) (hd : d ∈ S) :
    EqvGen rel (g c) (g d) ↔ ReflTransGen R c d := by
  have hrefl : ∀ {c d}, ReflTransGen R c d → ReflTransGen R d c := fun h =>
    reflTransGen_swap.mp (ReflTransGen.mono hsymm _ _ h)
  constructor
  · intro h
    -- what is in a class with an image is one
    have hpath : ∀ x y, EqvGen rel x y → x = y ∨
        ∃ c ∈ S, ∃ d ∈ S, x = g c ∧ y = g d ∧ ReflTransGen R c d := by
      intro x y h
      induction h with
      | rel x y h =>
        obtain ⟨c, d, hcd, rfl, rfl⟩ := hsound x y h
        exact .inr ⟨c, hmem c d hcd, d, hmem d c (hsymm c d hcd), rfl, rfl, .single hcd⟩
      | refl x => exact .inl rfl
      | symm x y _ ih =>
        rcases ih with rfl | ⟨c, hc, d, hd, rfl, rfl, hcd⟩
        · exact .inl rfl
        · exact .inr ⟨d, hd, c, hc, rfl, rfl, hrefl hcd⟩
      | trans x y z _ _ ih ih' =>
        rcases ih with rfl | ⟨c, hc, d, hd, rfl, rfl, hcd⟩
        · exact ih'
        · rcases ih' with rfl | ⟨d', hd', e, he, heq, rfl, hde⟩
          · exact .inr ⟨c, hc, d, hd, rfl, rfl, hcd⟩
          · obtain rfl := hinj hd hd' heq
            exact .inr ⟨c, hc, e, he, rfl, rfl, hcd.trans hde⟩
    rcases hpath _ _ h with heq | ⟨c', hc', d', hd', heq, heq', hcd⟩
    · rw [hinj hc hd heq]
    · rwa [hinj hc hc' heq, hinj hd hd' heq']
  · intro h
    clear hd
    induction h with
    | refl => exact .refl _
    | tail _ hstep ih => exact .trans _ _ _ ih (hcomplete _ _ hstep)

/-- **The trees on `S` are the classes** of the equivalence closure of `rel`. -/
structure Classes (f : α → α) (S : Set α) (rel : α → α → Prop) : Prop where
  closed : ∀ a ∈ S, f a ∈ S
  rooted : ∀ a ∈ S, ∃ r, RootOf f a r
  same : ∀ {a b r r'}, a ∈ S → b ∈ S → RootOf f a r → RootOf f b r' →
    (r = r' ↔ EqvGen rel a b)

variable {S : Set α}

theorem Classes.root_mem (h : Classes f S rel) (ha : a ∈ S) (hr : RootOf f a r) : r ∈ S :=
  hr.mem h.closed ha

/-- At first every element is a root, and nothing is related. -/
theorem classes_of_forall (hf : ∀ a ∈ S, f a = a) : Classes f S fun _ _ => False where
  closed := fun a ha => (hf a ha).symm ▸ ha
  rooted := fun a ha => ⟨a, .root (hf a ha)⟩
  same := by
    intro a b r r' ha hb hr hr'
    rw [hr.unique (.root (hf a ha)), hr'.unique (.root (hf b hb)), eqvGen_empty]

/-- **Two elements of one class** are related, and nothing has to be done. -/
theorem Classes.add (h : Classes f S rel) (ha : a ∈ S) (hb : b ∈ S) (hr : RootOf f a r)
    (hr' : RootOf f b r) : Classes f S (Adding rel a b) where
  closed := h.closed
  rooted := h.rooted
  same := by
    intro x y q q' hx hy hq hq'
    have hab : EqvGen rel a b := (h.same ha hb hr hr').mp rfl
    rw [h.same hx hy hq hq', eqvGen_adding]
    refine ⟨Or.inl, ?_⟩
    rintro (h | ⟨h, h'⟩ | ⟨h, h'⟩)
    · exact h
    · exact .trans _ _ _ h (.trans _ _ _ hab h')
    · exact .trans _ _ _ h (.trans _ _ _ (.symm _ _ hab) h')

/-- **Two elements are related** whose classes become one: the root of `b` is linked below that
of `a`. -/
theorem Classes.link [DecidableEq α] (h : Classes f S rel) (ha : a ∈ S) (hb : b ∈ S)
    (hr : RootOf f a r) (hc : RootOf f b c) (hne : r ≠ c) :
    Classes (Function.update f c r) S (Adding rel a b) where
  closed := by
    intro x hx
    by_cases hxc : x = c
    · rw [hxc, Function.update_self]
      exact h.root_mem ha hr
    · rw [Function.update_of_ne hxc]
      exact h.closed x hx
  rooted := by
    intro x hx
    obtain ⟨q, hq⟩ := h.rooted x hx
    exact ⟨_, hq.link hr.isRoot hc.isRoot hne⟩
  same := by
    intro x y p p' hx hy hp hp'
    obtain ⟨q, hq⟩ := h.rooted x hx
    obtain ⟨q', hq'⟩ := h.rooted y hy
    obtain rfl := hp.unique (hq.link hr.isRoot hc.isRoot hne)
    obtain rfl := hp'.unique (hq'.link hr.isRoot hc.isRoot hne)
    rw [eqvGen_adding, ← h.same hx hy hq hq', ← h.same hx ha hq hr, ← h.same hb hy hc hq',
      ← h.same hx hb hq hc, ← h.same ha hy hr hq']
    -- which of the two elements had the root that is linked
    split <;> split
    · rename_i hqc hqc'
      exact iff_of_true rfl (Or.inl (hqc.trans hqc'.symm))
    · rename_i hqc hqc'
      constructor
      · intro heq
        exact Or.inr (Or.inr ⟨hqc, heq⟩)
      · rintro (heq | ⟨-, heq⟩ | ⟨-, heq⟩)
        · exact absurd (heq.symm.trans hqc) hqc'
        · exact absurd heq.symm hqc'
        · exact heq
    · rename_i hqc hqc'
      constructor
      · intro heq
        exact Or.inr (Or.inl ⟨heq, hqc'.symm⟩)
      · rintro (heq | ⟨heq, -⟩ | ⟨heq, -⟩)
        · exact absurd (heq.trans hqc') hqc
        · exact heq
        · exact absurd heq hqc
    · rename_i hqc hqc'
      constructor
      · exact Or.inl
      · rintro (heq | ⟨-, heq⟩ | ⟨heq, -⟩)
        · exact heq
        · exact absurd heq.symm hqc'
        · exact absurd heq hqc

end Forest

end Candcpp
