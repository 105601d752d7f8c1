import Candcpp.Order.Steps

/-!
# Search by levels

How far a node is from a start, where one step leads from a node to another: the distance is the
least number of steps (`Candcpp.Distance`). A search by levels keeps a list of the nodes at one
distance, and knows which nodes have been seen, those that are not farther (`Candcpp.Level`). It
goes over the list, and of the nodes to which a step leads from there it puts those that have not
been seen in the next list (`Candcpp.Expanded`). **After the whole list the next one has the nodes
at the next distance** (`Candcpp.Expanded.level`), in whatever order, and also where one is listed
more than once.
-/

namespace Candcpp

variable {α : Type} {R : α → α → Prop} {s v x : α} {d D : ℕ}

/-! ### Distances -/

/-- The least number of steps from `s` to `v` is `d`. -/
def Distance (R : α → α → Prop) (s v : α) (d : ℕ) : Prop := IsLeast {k | Steps R k s v} d

/-- There are at most `d` steps from `s` to `v`. -/
def Near (R : α → α → Prop) (s : α) (d : ℕ) (v : α) : Prop := ∃ k ≤ d, Steps R k s v

theorem near_zero : Near R s 0 v ↔ v = s := by
  constructor
  · rintro ⟨k, hk, h⟩
    obtain rfl := Nat.le_zero.mp hk
    exact Steps.zero_iff.mp h
  · rintro rfl
    exact ⟨0, le_rfl, .done⟩

theorem distance_zero : Distance R s v 0 ↔ v = s := by
  constructor
  · intro h
    exact Steps.zero_iff.mp h.1
  · rintro rfl
    exact ⟨.done, fun k _ => Nat.zero_le k⟩

/-- What is reached at all is at some distance. -/
theorem Steps.exists_distance {k : ℕ} (h : Steps R k s v) : ∃ d, Distance R s v d := by
  classical
  exact ⟨Nat.find ⟨k, h⟩, Nat.find_spec ⟨k, h⟩, fun m hm => Nat.find_min' ⟨k, h⟩ hm⟩

theorem near_succ : Near R s (d + 1) v ↔ Near R s d v ∨ Distance R s v (d + 1) := by
  constructor
  · rintro ⟨k, hk, h⟩
    by_cases hnear : Near R s d v
    · exact .inl hnear
    · have hfar : ∀ m, Steps R m s v → d + 1 ≤ m := by
        intro m hm
        by_contra hlt
        exact hnear ⟨m, by omega, hm⟩
      obtain rfl : k = d + 1 := le_antisymm hk (hfar k h)
      exact .inr ⟨h, hfar⟩
  · rintro (⟨k, hk, h⟩ | h)
    · exact ⟨k, by omega, h⟩
    · exact ⟨d + 1, le_rfl, h.1⟩

/-- **The nodes at the next distance** are those that are not nearer, and to which one step leads
from a node at this distance. -/
theorem distance_succ :
    Distance R s v (d + 1) ↔ ¬ Near R s d v ∧ ∃ x, Distance R s x d ∧ R x v := by
  constructor
  · intro h
    have hfar : ¬ Near R s d v := by
      rintro ⟨k, hk, hsteps⟩
      have hle : d + 1 ≤ k := h.2 hsteps
      omega
    obtain ⟨x, hx, hlast⟩ := Steps.succ_iff.mp h.1
    refine ⟨hfar, x, ⟨hx, fun k hk => ?_⟩, hlast⟩
    by_contra hlt
    exact hfar ⟨k + 1, by omega, hk.snoc hlast⟩
  · rintro ⟨hfar, x, hx, hlast⟩
    refine ⟨hx.1.snoc hlast, fun k hk => ?_⟩
    by_contra hlt
    exact hfar ⟨k, by omega, hk⟩

/-- On the way to a node there are nodes at all the distances before its own. -/
theorem Distance.exists_before (h : Distance R s v D) (hd : d ≤ D) : ∃ x, Distance R s x d := by
  induction D generalizing v with
  | zero => exact ⟨v, Nat.le_zero.mp hd ▸ h⟩
  | succ D ih =>
    rcases Nat.lt_or_ge D d with hlt | hle
    · exact ⟨v, (show d = D + 1 by omega) ▸ h⟩
    · obtain ⟨-, x, hx, -⟩ := distance_succ.mp h
      exact ih hx hle

/-! ### Levels -/

variable {q done next new : List α} {seen seen' : α → Prop} {cand : α → Prop} {c : α}

/-- **The start of a level**: the list has the nodes at the distance `d`, and those that have been
seen are the ones at most as far. -/
structure Level (R : α → α → Prop) (s : α) (d : ℕ) (q : List α) (seen : α → Prop) : Prop where
  mem : ∀ v, v ∈ q ↔ Distance R s v d
  seen : ∀ v, seen v ↔ Near R s d v

/-- **Within a level**: the part `done` of its list has been expanded. -/
structure Expanded (R : α → α → Prop) (s : α) (d : ℕ) (done next : List α) (seen : α → Prop) :
    Prop where
  mem : ∀ v, v ∈ next ↔ ¬ Near R s d v ∧ ∃ x ∈ done, R x v
  seen : ∀ v, seen v ↔ Near R s d v ∨ v ∈ next

/-- **Some candidates are put in a list**: those that had not been seen, which they now are. -/
structure Pushed (seen cand : α → Prop) (new : List α) (seen' : α → Prop) : Prop where
  mem : ∀ v, v ∈ new ↔ cand v ∧ ¬ seen v
  seen : ∀ v, seen' v ↔ seen v ∨ v ∈ new

theorem level_zero : Level R s 0 [s] (· = s) where
  mem := fun v => by rw [List.mem_singleton, distance_zero]
  seen := fun _ => near_zero.symm

theorem Level.expanded (h : Level R s d q seen) : Expanded R s d [] [] seen where
  mem := fun v => by
    refine iff_of_false List.not_mem_nil ?_
    rintro ⟨-, x, hx, -⟩
    exact List.not_mem_nil hx
  seen := fun v => by rw [h.seen v, or_iff_left List.not_mem_nil]

/-- **One more node is expanded.** -/
theorem Expanded.push (h : Expanded R s d done next seen) (hp : Pushed seen (R x) new seen') :
    Expanded R s d (done ++ [x]) (next ++ new) seen' where
  mem := fun v => by
    have hnew := hp.mem v
    have hseen := h.seen v
    have hnext := h.mem v
    simp only [List.mem_append, List.mem_singleton, or_and_right, exists_or, exists_eq_left]
    constructor
    · rintro (hn | hn)
      · exact ⟨(hnext.mp hn).1, .inl (hnext.mp hn).2⟩
      · obtain ⟨hx, hunseen⟩ := hnew.mp hn
        exact ⟨fun hnear => hunseen (hseen.mpr (.inl hnear)), .inr hx⟩
    · rintro ⟨hfar, hx | hx⟩
      · exact .inl (hnext.mpr ⟨hfar, hx⟩)
      · by_cases hn : v ∈ next
        · exact .inl hn
        · exact .inr (hnew.mpr ⟨hx, fun hs => (hseen.mp hs).elim hfar hn⟩)
  seen := fun v => by rw [hp.seen v, h.seen v, List.mem_append, or_assoc]

/-- **The next level** is in the list. -/
theorem Expanded.level {seen₀ : α → Prop} (h : Expanded R s d q next seen)
    (hq : Level R s d q seen₀) : Level R s (d + 1) next seen where
  mem := fun v => by
    rw [h.mem v, distance_succ]
    simp only [hq.mem]
  seen := fun v => by
    rw [h.seen v, near_succ, h.mem v, distance_succ]
    simp only [hq.mem]

/-! ### Candidates, one by one -/

theorem Pushed.nil (seen : α → Prop) : Pushed seen (fun _ => False) [] seen where
  mem := fun _ => iff_of_false List.not_mem_nil fun h => h.1
  seen := fun _ => (or_iff_left List.not_mem_nil).symm

/-- Only those candidates matter that had not been seen. -/
theorem Pushed.congr {cand' seen'' : α → Prop} (h : Pushed seen cand new seen')
    (hc : ∀ v, ¬ seen v → (cand' v ↔ cand v)) (hs : ∀ v, seen'' v ↔ seen' v) :
    Pushed seen cand' new seen'' where
  mem := fun v => by rw [h.mem v, and_congr_left (hc v)]
  seen := fun v => by rw [hs v, h.seen v]

/-- What had been seen still is. -/
theorem Pushed.seen_of_seen (h : Pushed seen cand new seen') (hv : seen v) : seen' v :=
  (h.seen v).mpr (.inl hv)

/-- **All candidates have been seen** in the end. -/
theorem Pushed.seen_of_cand (h : Pushed seen cand new seen') (hv : cand v) : seen' v := by
  by_cases hs : seen v
  · exact h.seen_of_seen hs
  · exact (h.seen v).mpr (.inr ((h.mem v).mpr ⟨hv, hs⟩))

/-- A candidate that has been seen is left out. -/
theorem Pushed.skip (h : Pushed seen cand new seen') (hc : seen' c) :
    Pushed seen (fun v => cand v ∨ v = c) new seen' where
  mem := fun v => by
    rw [h.mem v, or_and_right]
    refine (or_iff_left_of_imp ?_).symm
    rintro ⟨rfl, hnew⟩
    exact (h.mem v).mp (((h.seen v).mp hc).resolve_left hnew)
  seen := h.seen

/-- A candidate that has not been seen goes to the end of the list. -/
theorem Pushed.push (h : Pushed seen cand new seen') (hc : ¬ seen' c) :
    Pushed seen (fun v => cand v ∨ v = c) (new ++ [c]) (fun v => seen' v ∨ v = c) where
  mem := fun v => by
    rw [List.mem_append, List.mem_singleton, h.mem v, or_and_right]
    refine or_congr_right (and_iff_left_of_imp ?_).symm
    rintro rfl hseen
    exact hc ((h.seen v).mpr (.inl hseen))
  seen := fun v => by rw [h.seen v, List.mem_append, List.mem_singleton, or_assoc]

end Candcpp
