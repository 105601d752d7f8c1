import Candcpp.Cpp.Exec

/-!
# Objects, and what they stand for

An object is used through its methods: a `Candcpp.Object` executes a call, and it returns an
answer and the object after it. What the object stands for is a `Candcpp.Model`, whose calls
are functions on an abstract state.

An object *simulates* a model if the answers are those of the model and the two states stay
related (`Candcpp.Object.Simulates`). A call may be beyond what the object can do: the relation
`G` says which calls it is good for. Then any sequence of calls is answered as by the model
exactly if each of them is good when it is made (`Candcpp.Object.Simulates.calls_iff_guarded`).
-/

namespace Candcpp

open Cpp

/-- An object, with the calls of its methods. -/
structure Object (σ α ρ : Type) where
  /-- What the caller and the allocator promise. -/
  allowed : σ → α → Prop
  /-- What the code does: its answer, and the object afterwards. -/
  exec : σ → α → Exec (ρ × σ)

/-- An abstract model of an object. -/
structure Model (τ α ρ : Type) where
  /-- The answer of a call. -/
  answer : τ → α → ρ
  /-- The abstract state after a call. -/
  next : τ → α → τ

variable {σ τ α ρ : Type}

namespace Model

/-- The answers of calls made one after the other. -/
def answers (M : Model τ α ρ) : τ → List α → List ρ
  | _, [] => []
  | x, a :: l => M.answer x a :: M.answers (M.next x a) l

/-- The abstract state after them. -/
def after (M : Model τ α ρ) : τ → List α → τ := List.foldl M.next

/-- Each call is good when it is made. -/
def Guarded (M : Model τ α ρ) (G : τ → α → Prop) : τ → List α → Prop
  | _, [] => True
  | x, a :: l => G x a ∧ M.Guarded G (M.next x a) l

/-- Where every call is good, so is a sequence of them. -/
theorem guarded_of_forall (M : Model τ α ρ) {G : τ → α → Prop} (h : ∀ x a, G x a) (x : τ)
    (l : List α) : M.Guarded G x l := by
  induction l generalizing x with
  | nil => trivial
  | cons a l ih => exact ⟨h x a, ih _⟩

theorem Guarded.of_append {M : Model τ α ρ} {G : τ → α → Prop} {x : τ} {l t : List α}
    (h : M.Guarded G x (l ++ t)) : M.Guarded G x l := by
  induction l generalizing x with
  | nil => trivial
  | cons a l ih => exact ⟨h.1, ih h.2⟩

end Model

namespace Object

/-- The calls made one after the other, with the answers. -/
def calls (O : Object σ α ρ) : σ → List α → Exec (List ρ × σ)
  | s, [] => pure ([], s)
  | s, a :: l => do
    let r ← O.exec s a
    let rs ← O.calls r.2 l
    pure (r.1 :: rs.1, rs.2)

/-- Each call is allowed when it is made. -/
def AllowedAll (O : Object σ α ρ) : σ → List α → Prop
  | _, [] => True
  | s, a :: l => O.allowed s a ∧ ∀ r, O.exec s a = pure r → O.AllowedAll r.2 l

/-- Where every call is allowed, so is a sequence of them. -/
theorem allowedAll_of_forall {O : Object σ α ρ} (h : ∀ s a, O.allowed s a) (s : σ) (l : List α) :
    O.AllowedAll s l := by
  induction l generalizing s with
  | nil => trivial
  | cons a l ih => exact ⟨h s a, fun r _ => ih r.2⟩

/-- Where each of the calls is allowed at any time, so is the sequence of them. -/
theorem allowedAll_of_mem {O : Object σ α ρ} {l : List α} (h : ∀ a ∈ l, ∀ s, O.allowed s a)
    (s : σ) : O.AllowedAll s l := by
  induction l generalizing s with
  | nil => trivial
  | cons a l ih =>
    have hothers : ∀ b ∈ l, ∀ s, O.allowed s b := fun b hb => h b (List.mem_cons_of_mem a hb)
    exact ⟨h a List.mem_cons_self s, fun r _ => ih hothers r.2⟩

/-- A call that is allowed, and what is allowed after it. -/
theorem AllowedAll.cons {O : Object σ α ρ} {s : σ} {a : α} {l : List α} {r : ρ × σ}
    (ha : O.allowed s a) (hr : O.exec s a = pure r) (h : O.AllowedAll r.2 l) :
    O.AllowedAll s (a :: l) :=
  ⟨ha, fun _ hr' => Exec.pure_unique hr hr' ▸ h⟩

theorem AllowedAll.of_append {O : Object σ α ρ} {s : σ} {l t : List α}
    (h : O.AllowedAll s (l ++ t)) : O.AllowedAll s l := by
  induction l generalizing s with
  | nil => trivial
  | cons a l ih => exact ⟨h.1, fun r hr => ih (h.2 r hr)⟩

/-- **An object simulates a model** for the calls that are good for it: it answers what the
model answers, and the states stay related. -/
def Simulates (O : Object σ α ρ) (M : Model τ α ρ) (R : σ → τ → Prop) (G : τ → α → Prop) : Prop :=
  ∀ s x a, R s x → O.allowed s a → G x a →
    ∃ s', O.exec s a = pure (M.answer x a, s') ∧ R s' (M.next x a)

variable {O : Object σ α ρ} {M : Model τ α ρ} {R : σ → τ → Prop} {G : τ → α → Prop} {s : σ} {x : τ}
  {l : List α}

/-- **Calls that are good are answered**, and the states stay related. -/
theorem Simulates.calls (h : O.Simulates M R G) (hR : R s x) (hall : O.AllowedAll s l)
    (hG : M.Guarded G x l) : ∃ s', O.calls s l = pure (M.answers x l, s') ∧ R s' (M.after x l) := by
  induction l generalizing s x with
  | nil => exact ⟨s, rfl, hR⟩
  | cons a l ih =>
    obtain ⟨s', hexec, hR'⟩ := h s x a hR hall.1 hG.1
    obtain ⟨s'', hcalls, hR''⟩ := ih hR' (hall.2 _ hexec) hG.2
    refine ⟨s'', ?_, hR''⟩
    rw [Object.calls, hexec, pure_bind, hcalls, pure_bind]
    rfl

/-- Calls that return were good, where a call that is not good does not return. -/
theorem Simulates.guarded (h : O.Simulates M R G)
    (hfault : ∀ s x a, R s x → O.allowed s a → ¬ G x a → ∀ r, O.exec s a ≠ pure r)
    (hR : R s x) (hall : O.AllowedAll s l) {p : List ρ × σ} (hcalls : O.calls s l = pure p) :
    M.Guarded G x l := by
  induction l generalizing s x p with
  | nil => trivial
  | cons a l ih =>
    obtain ⟨r, hexec, hrest⟩ := Exec.bind_eq_pure.mp hcalls
    obtain ⟨rs, hrest, -⟩ := Exec.bind_eq_pure.mp hrest
    have hG : G x a := by
      by_contra hG
      exact hfault s x a hR hall.1 hG r hexec
    obtain ⟨t, ht, hR'⟩ := h s x a hR hall.1 hG
    obtain rfl := Exec.pure_unique hexec ht
    exact ⟨hG, ih hR' (hall.2 _ hexec) hrest⟩

/-- **Calls are answered exactly if they are good**, where a call that is not good does not
return. -/
theorem Simulates.calls_iff_guarded (h : O.Simulates M R G)
    (hfault : ∀ s x a, R s x → O.allowed s a → ¬ G x a → ∀ r, O.exec s a ≠ pure r)
    (hR : R s x) (hall : O.AllowedAll s l) :
    (∃ s', O.calls s l = pure (M.answers x l, s') ∧ R s' (M.after x l)) ↔ M.Guarded G x l := by
  refine ⟨?_, h.calls hR hall⟩
  rintro ⟨s', hcalls, -⟩
  exact h.guarded hfault hR hall hcalls

/-- **Calls are answered as by the model exactly if they are good**, where a call that is not good
is answered otherwise. -/
theorem Simulates.answers_iff_guarded (h : O.Simulates M R G)
    (hwrong : ∀ s x a, R s x → O.allowed s a → ¬ G x a → ∀ s', O.exec s a ≠ pure (M.answer x a, s'))
    (hR : R s x) (hall : O.AllowedAll s l) :
    (∃ s', O.calls s l = pure (M.answers x l, s')) ↔ M.Guarded G x l := by
  constructor
  · intro hcalls
    induction l generalizing s x with
    | nil => trivial
    | cons a l ih =>
      obtain ⟨s', hcalls⟩ := hcalls
      obtain ⟨r, hexec, hrest⟩ := Exec.bind_eq_pure.mp hcalls
      obtain ⟨rs, hrest, hanswers⟩ := Exec.bind_eq_pure.mp hrest
      obtain ⟨hfirst, hothers⟩ := List.cons.inj (Prod.mk.inj (Exec.pure_inj.mp hanswers)).1
      have hG : G x a := by
        by_contra hG
        exact hwrong s x a hR hall.1 hG r.2 (hfirst ▸ hexec)
      obtain ⟨t, ht, hR'⟩ := h s x a hR hall.1 hG
      obtain rfl := Exec.pure_unique hexec ht
      exact ⟨hG, ih hR' (hall.2 _ hexec) ⟨rs.2, hothers ▸ hrest⟩⟩
  · intro hG
    obtain ⟨s', hcalls, -⟩ := h.calls hR hall hG
    exact ⟨s', hcalls⟩

end Object

end Candcpp
