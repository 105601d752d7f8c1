import Candcpp.Cpp.Exec

/-!
# Transition systems, and programs used step by step

A system that takes step after step is an `Candcpp.Lts`: the states it may start in
and a labelled step relation. `Candcpp.Lts.Reachable` is what any number of steps
reach, `Candcpp.Lts.Run` keeps the steps themselves, and each has its induction rule.
Where the steps are computed, `Candcpp.Lts.Reachable.foldlM` replays a list of labels.

A data structure used by a client is a `Candcpp.Program`: the client chooses the
operations, the code executes them. The client owes the code something, namely
`Program.allowed` – a timer that is deleted must exist – and the code owes the
client that an allowed operation returns. `Candcpp.Program.safe` is the rule that
proves it: an invariant that every allowed operation keeps *and that makes it
return* holds of every reachable state, and there no allowed operation faults or
hangs.
-/

namespace Candcpp

/-- A labelled transition system. -/
structure Lts (σ α : Type) where
  /-- The states a run starts in. -/
  init : σ → Prop
  /-- One step, with its label. -/
  step : σ → α → σ → Prop

namespace Lts

variable {σ α : Type} {M : Lts σ α} {I : σ → Prop}

/-- The states some run goes through. -/
inductive Reachable (M : Lts σ α) : σ → Prop
  /-- A run starts in an initial state. -/
  | init {s : σ} (h : M.init s) : Reachable M s
  /-- A run takes one more step. -/
  | step {s s' : σ} {a : α} (h : Reachable M s) (hs : M.step s a s') : Reachable M s'

/-- **Invariants**: what holds initially and is kept by every step from a
reachable state holds of every reachable state. -/
theorem Reachable.invariant (h0 : ∀ s, M.init s → I s)
    (hstep : ∀ s a s', M.Reachable s → I s → M.step s a s' → I s') {s : σ}
    (h : M.Reachable s) : I s := by
  induction h with
  | init h => exact h0 _ h
  | step h hs ih => exact hstep _ _ _ h ih hs

/-- A run that computes its steps. -/
theorem Reachable.foldlM {f : σ → α → Option σ} (hf : ∀ s a s', f s a = some s' → M.step s a s')
    {l : List α} {s s' : σ} (h : M.Reachable s) (hl : l.foldlM f s = some s') :
    M.Reachable s' := by
  induction l generalizing s with
  | nil => exact Option.some.inj hl ▸ h
  | cons a l ih =>
    rw [List.foldlM_cons] at hl
    obtain ⟨t, ht, hl⟩ := Option.bind_eq_some_iff.mp hl
    exact ih (h.step (hf s a t ht)) hl

/-- The runs from a state, with the steps taken: from which state, and by which label. -/
inductive Run (M : Lts σ α) (s : σ) : List (σ × α) → σ → Prop
  /-- The run of no step. -/
  | nil : Run M s [] s
  /-- A run, and one more step. -/
  | snoc {l : List (σ × α)} {s' s'' : σ} {a : α} (h : Run M s l s') (hs : M.step s' a s'') :
      Run M s (l ++ [(s', a)]) s''

/-- The states a run goes through, its last one included. -/
def visited (l : List (σ × α)) (s : σ) : List σ := l.map Prod.fst ++ [s]

theorem visited_snoc (l : List (σ × α)) (p : σ × α) (s : σ) :
    visited (l ++ [p]) s = visited l p.1 ++ [s] := by
  rw [visited, visited, List.map_append, List.map_singleton]

theorem mem_visited {l : List (σ × α)} {p : σ × α} (hp : p ∈ l) (s : σ) : p.1 ∈ visited l s :=
  List.mem_append_left _ (List.mem_map_of_mem hp)

theorem last_mem_visited (l : List (σ × α)) (s : σ) : s ∈ visited l s :=
  List.mem_append_right _ (List.mem_singleton.mpr rfl)

/-- A step of a run leads to a state of the run. -/
theorem Run.next {s s' : σ} {l : List (σ × α)} (h : M.Run s l s') {p : σ × α} (hp : p ∈ l) :
    ∃ t, M.step p.1 p.2 t ∧ t ∈ visited l s' := by
  induction h with
  | nil => cases hp
  | snoc _ hs ih =>
    rw [visited_snoc]
    rcases List.mem_append.mp hp with hp | hp
    · obtain ⟨t, ht, hmem⟩ := ih hp
      exact ⟨t, ht, List.mem_append_left _ hmem⟩
    · rw [List.mem_singleton.mp hp]
      exact ⟨_, hs, List.mem_append_right _ (List.mem_singleton.mpr rfl)⟩

/-- What no step makes smaller is at the end of a run at least what it is after each of its
steps. -/
theorem Run.next_le {f : σ → ℕ} (hf : ∀ s a s', M.step s a s' → f s ≤ f s') {s s' : σ}
    {l : List (σ × α)} (h : M.Run s l s') {p : σ × α} (hp : p ∈ l) :
    ∃ t, M.step p.1 p.2 t ∧ f t ≤ f s' := by
  induction h with
  | nil => cases hp
  | snoc _ hs ih =>
    rcases List.mem_append.mp hp with hp | hp
    · obtain ⟨t, ht, hle⟩ := ih hp
      exact ⟨t, ht, hle.trans (hf _ _ _ hs)⟩
    · rw [List.mem_singleton.mp hp]
      exact ⟨_, hs, le_rfl⟩

/-- A run, and one more step before it. -/
theorem Run.cons {s s' s'' : σ} {a : α} {l : List (σ × α)} (hs : M.step s a s')
    (h : M.Run s' l s'') : M.Run s ((s, a) :: l) s'' := by
  induction h with
  | nil => exact Run.nil.snoc hs
  | snoc _ hstep ih => exact ih.snoc hstep

/-- The steps of a run that computes them, as far as they are possible. -/
def trace (f : σ → α → Option σ) : σ → List α → List (σ × α)
  | _, [] => []
  | s, a :: l =>
    match f s a with
    | some s' => (s, a) :: trace f s' l
    | none => []

theorem Run.of_trace {f : σ → α → Option σ} (hf : ∀ s a s', f s a = some s' → M.step s a s')
    {l : List α} {s s' : σ} (h : l.foldlM f s = some s') : M.Run s (trace f s l) s' := by
  induction l generalizing s with
  | nil =>
    obtain rfl := Option.some.inj h
    exact .nil
  | cons a l ih =>
    rw [List.foldlM_cons] at h
    obtain ⟨t, ht, h⟩ := Option.bind_eq_some_iff.mp h
    rw [trace, ht]
    exact (ih h).cons (hf s a t ht)

/-- **Invariants along a run**: what holds where a run starts, and is kept by the steps
it takes, holds of every state it goes through. -/
theorem Run.invariant {s s' : σ} {l : List (σ × α)} (h : M.Run s l s') (h0 : I s)
    (hstep : ∀ p ∈ l, ∀ t, I p.1 → M.step p.1 p.2 t → I t) : ∀ t ∈ visited l s', I t := by
  induction h with
  | nil =>
    intro t ht
    rwa [List.mem_singleton.mp ht]
  | snoc _ hs ih =>
    have hvisited := ih fun p hp => hstep p (List.mem_append_left _ hp)
    intro t ht
    rw [visited_snoc] at ht
    rcases List.mem_append.mp ht with ht | ht
    · exact hvisited t ht
    · rw [List.mem_singleton.mp ht]
      refine hstep _ (List.mem_append_right _ (List.mem_singleton.mpr rfl)) _ ?_ hs
      exact hvisited _ (last_mem_visited _ _)

end Lts

/-- A program whose client chooses the operations. -/
structure Program (σ α : Type) where
  /-- The states it is started in. -/
  init : σ → Prop
  /-- What the client may ask for in a state. -/
  allowed : σ → α → Prop
  /-- What the code does. -/
  exec : σ → α → Cpp.Exec σ

namespace Program

variable {σ α : Type} {P : Program σ α} {I : σ → Prop}

/-- The transition system of a program: its allowed operations that return. -/
def lts (P : Program σ α) : Lts σ α where
  init := P.init
  step := fun s a s' => P.allowed s a ∧ P.exec s a = pure s'

/-- The states the program reaches by allowed operations. -/
abbrev Reachable (P : Program σ α) : σ → Prop := P.lts.Reachable

/-- **Safety**: an invariant under which every allowed operation returns, and
which it keeps, holds of every reachable state, and so every allowed operation
of a reachable state returns. -/
theorem safe (h0 : ∀ s, P.init s → I s)
    (hstep : ∀ s a, I s → P.allowed s a → ∃ s', P.exec s a = pure s' ∧ I s') {s : σ}
    (h : P.Reachable s) : I s ∧ ∀ a, P.allowed s a → ∃ s', P.exec s a = pure s' := by
  have hI : I s := by
    refine h.invariant h0 ?_
    rintro s a s' - hs ⟨hall, hex⟩
    obtain ⟨s'', hex', hs''⟩ := hstep s a hs hall
    rw [hex] at hex'
    rwa [Cpp.Exec.pure_inj.mp hex']
  refine ⟨hI, fun a ha => ?_⟩
  obtain ⟨s', hex, -⟩ := hstep s a hI ha
  exact ⟨s', hex⟩

/-- One step, computed, if it is allowed and returns. -/
def tryStep (P : Program σ α) [∀ s a, Decidable (P.allowed s a)] (s : σ) (a : α) : Option σ :=
  if P.allowed s a then (P.exec s a).returned else none

theorem tryStep_step [∀ s a, Decidable (P.allowed s a)] (s : σ) (a : α) (s' : σ)
    (h : P.tryStep s a = some s') : P.lts.step s a s' := by
  rw [tryStep] at h
  split at h
  · rename_i hallowed
    exact ⟨hallowed, Cpp.Exec.eq_pure_of_returned h⟩
  · cases h

end Program

end Candcpp
