import Mathlib

/-!
# A number of steps

What can be reached from a state by exactly `n` steps of a relation (`Candcpp.Steps`), what every
step preserves, and how far a number that each step lowers can fall: **if each step takes at least
one off, there are not more steps than what is taken off** (`Candcpp.Steps.add_le`), and if each
step takes at most one off, there are not less (`Candcpp.Steps.le_add`).
-/

namespace Candcpp

variable {α : Type} {R : α → α → Prop} {a b c : α} {n : ℕ}

/-- `n` steps, one after the other. -/
inductive Steps (R : α → α → Prop) : ℕ → α → α → Prop
  /-- No step. -/
  | done {a : α} : Steps R 0 a a
  /-- One step, and the others. -/
  | next {n : ℕ} {a b c : α} (h : R a b) (hrest : Steps R n b c) : Steps R (n + 1) a c

namespace Steps

/-- What each step preserves holds in the end. -/
theorem preserves {P : α → Prop} (h : Steps R n a b) (hstep : ∀ a b, R a b → P a → P b)
    (ha : P a) : P b := by
  induction h with
  | done => exact ha
  | next h _ ih => exact ih (hstep _ _ h ha)

/-- Without a step one stays where one is. -/
theorem zero_iff : Steps R 0 a b ↔ b = a := by
  constructor
  · rintro ⟨⟩
    rfl
  · rintro rfl
    exact .done

/-- One more step at the end. -/
theorem snoc (h : Steps R n a b) (hlast : R b c) : Steps R (n + 1) a c := by
  induction h with
  | done => exact .next hlast .done
  | next h _ ih => exact .next h (ih hlast)

/-- Some steps, and then some more. -/
theorem trans {m : ℕ} (h : Steps R n a b) (h' : Steps R m b c) : Steps R (n + m) a c := by
  induction h with
  | done => rwa [Nat.zero_add]
  | next h _ ih =>
    rw [Nat.succ_add]
    exact .next h (ih h')

/-- Steps between what the states are mapped to. -/
theorem map {β : Type} {S : β → β → Prop} {f : α → β} (h : Steps R n a b)
    (hstep : ∀ a b, R a b → S (f a) (f b)) : Steps S n (f a) (f b) := by
  induction h with
  | done => exact .done
  | next h _ ih => exact .next (hstep _ _ h) ih

/-- **The last step** of at least one. -/
theorem succ_iff : Steps R (n + 1) a c ↔ ∃ b, Steps R n a b ∧ R b c := by
  constructor
  · intro h
    induction n generalizing a with
    | zero =>
      cases h with
      | next hone hrest =>
        obtain rfl := zero_iff.mp hrest
        exact ⟨a, .done, hone⟩
    | succ n ih =>
      cases h with
      | next hone hrest =>
        obtain ⟨b, hb, hlast⟩ := ih hrest
        exact ⟨b, .next hone hb, hlast⟩
  · rintro ⟨b, h, hlast⟩
    exact h.snoc hlast

/-- Each step takes at least one off. -/
theorem add_le {f : α → ℤ} (h : Steps R n a b) (hstep : ∀ a b, R a b → f b + 1 ≤ f a) :
    f b + n ≤ f a := by
  induction h with
  | done => simp
  | next h _ ih =>
    have hone := hstep _ _ h
    push_cast
    omega

/-- Each step takes at most one off. -/
theorem le_add {f : α → ℤ} (h : Steps R n a b) (hstep : ∀ a b, R a b → f a ≤ f b + 1) :
    f a ≤ f b + n := by
  induction h with
  | done => simp
  | next h _ ih =>
    have hone := hstep _ _ h
    push_cast
    omega

end Steps

end Candcpp
