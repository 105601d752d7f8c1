import Mathlib

/-!
# What a timer container is for

The abstract model that the timer containers are compared with: the pending
timers are a partial map from timers to deadlines (`Candcpp.Pending`). A timer is
added with a deadline, it is removed, and the clock strikes `T`:
`Candcpp.Pending.Expires` says what a container has to do then – hand out exactly
the timers whose deadline has come, each once and the earlier ones first, and
keep the others.

A container does it by taking one earliest timer after the other until the
earliest one is not due, and that is what the two rules `Candcpp.Pending.expires_stop`
and `Candcpp.Pending.Expires.cons` say; a container only has to know where its
earliest timer is. Nothing here mentions memory, lists or heaps.
-/

namespace Candcpp

/-- The pending timers, with their deadlines. -/
abbrev Pending (ι τ : Type) := ι → Option τ

namespace Pending

variable {ι τ : Type} [DecidableEq ι]

/-- A timer is added, or its deadline is changed. -/
def add (P : Pending ι τ) (i : ι) (t : τ) : Pending ι τ := Function.update P i (some t)

/-- A timer is removed. -/
def remove (P : Pending ι τ) (i : ι) : Pending ι τ := Function.update P i none

@[simp] theorem add_self (P : Pending ι τ) (i : ι) (t : τ) : P.add i t i = some t := by
  simp [add]

theorem add_of_ne (P : Pending ι τ) {i j : ι} (t : τ) (h : j ≠ i) : P.add i t j = P j := by
  simp [add, h]

@[simp] theorem remove_self (P : Pending ι τ) (i : ι) : P.remove i i = none := by
  simp [remove]

theorem remove_of_ne (P : Pending ι τ) {i j : ι} (h : j ≠ i) : P.remove i j = P j := by
  simp [remove, h]

theorem remove_eq_some {P : Pending ι τ} {i j : ι} {t : τ} :
    P.remove i j = some t ↔ j ≠ i ∧ P j = some t := by
  by_cases h : j = i
  · subst h
    simp
  · simp [remove_of_ne P h, h]

section Objects

variable {ν : Type} (m : ι → Option ν) (f : ν → τ) (i : ι)

/-- The deadlines of objects, one of which is added or changed. -/
theorem map_update_some (x : ν) :
    (fun j => (Function.update m i (some x) j).map f) =
      Pending.add (fun j => (m j).map f) i (f x) := by
  funext j
  by_cases hj : j = i
  · rw [hj, add_self, Function.update_self, Option.map_some]
  · rw [add_of_ne _ _ hj, Function.update_of_ne hj]

/-- The deadlines of objects, one of which is removed. -/
theorem map_update_none :
    (fun j => (Function.update m i none j).map f) = Pending.remove (fun j => (m j).map f) i := by
  funext j
  by_cases hj : j = i
  · rw [hj, remove_self, Function.update_self, Option.map_none]
  · rw [remove_of_ne _ hj, Function.update_of_ne hj]

end Objects

variable [LinearOrder τ]

/-- **The clock strikes `T`**: the timers `out` are handed out, and `P'` is what
remains pending. -/
structure Expires (P : Pending ι τ) (T : τ) (out : List ι) (P' : Pending ι τ) : Prop where
  /-- No timer is handed out twice. -/
  nodup : out.Nodup
  /-- The timers handed out are the due ones. -/
  mem_iff : ∀ i, i ∈ out ↔ ∃ t, P i = some t ∧ t ≤ T
  /-- The earlier ones come first. -/
  sorted : out.Pairwise fun i j => ∀ t u, P i = some t → P j = some u → t ≤ u
  /-- The others remain, as they were. -/
  rest : ∀ i, P' i = if i ∈ out then none else P i

variable {P P' : Pending ι τ} {T t : τ} {out : List ι} {i : ι}

/-- **Nothing is due**: nothing is handed out. -/
theorem expires_stop (h : ∀ j u, P j = some u → T < u) : P.Expires T [] P where
  nodup := List.nodup_nil
  mem_iff := by
    intro j
    constructor
    · intro hj
      cases hj
    · rintro ⟨u, hu, hle⟩
      exact absurd hle (not_le.mpr (h j u hu))
  sorted := .nil
  rest := fun j => by simp

/-- **An earliest timer is due**: it is handed out first, and the others follow. -/
theorem Expires.cons (hi : P i = some t) (ht : t ≤ T) (hmin : ∀ j u, P j = some u → t ≤ u)
    (h : (P.remove i).Expires T out P') : P.Expires T (i :: out) P' where
  nodup := by
    refine List.nodup_cons.mpr ⟨fun hmem => ?_, h.nodup⟩
    obtain ⟨u, hu, -⟩ := (h.mem_iff i).mp hmem
    exact (remove_eq_some.mp hu).1 rfl
  mem_iff := by
    intro j
    rw [List.mem_cons, h.mem_iff]
    constructor
    · rintro (rfl | ⟨u, hu, hle⟩)
      · exact ⟨t, hi, ht⟩
      · exact ⟨u, (remove_eq_some.mp hu).2, hle⟩
    · rintro ⟨u, hu, hle⟩
      by_cases hj : j = i
      · exact Or.inl hj
      · exact Or.inr ⟨u, remove_eq_some.mpr ⟨hj, hu⟩, hle⟩
  sorted := by
    refine List.pairwise_cons.mpr ⟨fun j hj u v hu hv => ?_, ?_⟩
    · rw [hi] at hu
      rw [← Option.some.inj hu]
      exact hmin j v hv
    · refine h.sorted.imp_of_mem fun {j k} hj hk hjk u v hu hv => ?_
      -- `i` is pending no more, so that it is not among the others
      have hji : j ≠ i := by
        obtain ⟨w, hw, -⟩ := (h.mem_iff j).mp hj
        exact (remove_eq_some.mp hw).1
      have hki : k ≠ i := by
        obtain ⟨w, hw, -⟩ := (h.mem_iff k).mp hk
        exact (remove_eq_some.mp hw).1
      exact hjk u v (remove_eq_some.mpr ⟨hji, hu⟩) (remove_eq_some.mpr ⟨hki, hv⟩)
  rest := by
    intro j
    rw [h.rest]
    by_cases hj : j = i
    · subst hj
      simp
    · simp [remove_of_ne P hj, hj]

/-- What remains pending is not due. -/
theorem Expires.lt_of_rest (h : P.Expires T out P') (hi : P' i = some t) : T < t := by
  rw [h.rest] at hi
  split at hi
  · cases hi
  · rename_i hmem
    by_contra hcon
    exact hmem ((h.mem_iff i).mpr ⟨t, hi, not_lt.mp hcon⟩)

/-- A timer that remains pending was pending, with the same deadline. -/
theorem Expires.of_rest (h : P.Expires T out P') (hi : P' i = some t) : P i = some t := by
  rw [h.rest] at hi
  split at hi
  · cases hi
  · exact hi

/-! ### The operations of a container -/

/-- What a client may do to the pending timers. -/
inductive Op (ι τ : Type) where
  /-- A timer is added with a deadline, or given another one. -/
  | arm (i : ι) (t : τ) : Op ι τ
  /-- A timer is removed. -/
  | disarm (i : ι) : Op ι τ
  /-- The clock strikes. -/
  | strike (T : τ) : Op ι τ

/-- **One step of a timer container**, with the timers it hands out. -/
inductive Step : Pending ι τ → Op ι τ → List ι → Pending ι τ → Prop
  /-- Adding a timer hands nothing out. -/
  | arm {P : Pending ι τ} {i : ι} {t : τ} : Step P (.arm i t) [] (P.add i t)
  /-- Removing a timer hands nothing out. -/
  | disarm {P : Pending ι τ} {i : ι} : Step P (.disarm i) [] (P.remove i)
  /-- The clock hands out what is due. -/
  | strike {P P' : Pending ι τ} {T : τ} {out : List ι} (h : P.Expires T out P') :
      Step P (.strike T) out P'

end Pending

end Candcpp
