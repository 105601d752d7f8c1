import Mathlib

/-!
# Sliding to one end

A list of cells, some of which hold a stone and some of which are free. A stone slides to the right,
one cell at a time, as long as the cell behind it is free: `Candcpp.Slide`. The other cells are
obstacles. However the stones slide, they come to rest in the same way
(`Candcpp.settles_iff`): as in `Candcpp.settle`, which lets the stones slide one after the other,
the last one first.

Nothing is lost on the way (`Candcpp.Slide.perm`), and an obstacle stays where it is
(`Candcpp.Slide.getElem?`).
-/

namespace Candcpp

variable {α : Type}

/-- A stone slides into the free cell behind it. -/
inductive Slide (stone free : α) : List α → List α → Prop
  | here (l : List α) : Slide stone free (stone :: free :: l) (free :: stone :: l)
  | cons (a : α) {l l' : List α} : Slide stone free l l' → Slide stone free (a :: l) (a :: l')

/-- The stones have come to rest: they have slid, and none of them can go on. -/
def Settles (stone free : α) (l l' : List α) : Prop :=
  Relation.ReflTransGen (Slide stone free) l l' ∧ ∀ l'', ¬ Slide stone free l' l''

section Settle

variable [DecidableEq α]

/-- A stone slides over the free cells in front of it. -/
def place (stone free : α) : List α → List α
  | [] => [stone]
  | a :: l => if a = free then free :: place stone free l else stone :: a :: l

/-- The stones slide one after the other, the last one first. -/
def settle (stone free : α) : List α → List α
  | [] => []
  | a :: l => if a = stone then place stone free (settle stone free l) else a :: settle stone free l

end Settle

variable {stone free a x : α} {l l' l'' : List α} {i k : ℕ}

/-! ### One stone, one cell -/

theorem Slide.perm (h : Slide stone free l l') : l.Perm l' := by
  induction h with
  | here l => exact List.Perm.swap _ _ _
  | cons a _ ih => exact ih.cons a

/-- **An obstacle stays** where it is. -/
theorem Slide.getElem? (h : Slide stone free l l') (hs : x ≠ stone) (hf : x ≠ free) (i : ℕ) :
    l[i]? = some x ↔ l'[i]? = some x := by
  induction h generalizing i with
  | here l =>
    rcases i with _ | _ | i
    · simp only [List.getElem?_cons_zero, Option.some.injEq, hs.symm, hf.symm]
    · simp only [List.getElem?_cons_succ, List.getElem?_cons_zero, Option.some.injEq, hs.symm,
        hf.symm]
    · simp only [List.getElem?_cons_succ]
  | cons a _ ih =>
    cases i with
    | zero => simp only [List.getElem?_cons_zero]
    | succ i => simpa only [List.getElem?_cons_succ] using ih i

/-- Where a list lets a stone slide: at its first cell, or behind it. -/
theorem slide_cons : Slide stone free (a :: l) l'' ↔
    (∃ q, a = stone ∧ l = free :: q ∧ l'' = free :: stone :: q) ∨
      ∃ l', Slide stone free l l' ∧ l'' = a :: l' := by
  constructor
  · intro h
    cases h with
    | here q => exact .inl ⟨q, rfl, rfl, rfl⟩
    | cons a h => exact .inr ⟨_, h, rfl⟩
  · rintro (⟨q, rfl, rfl, rfl⟩ | ⟨l', h, rfl⟩)
    · exact .here q
    · exact h.cons a

/-- **At rest**: the cells behind the first one are, and that is not a stone before a free cell. -/
theorem settled_cons : (∀ l'', ¬ Slide stone free (a :: l) l'') ↔
    (∀ l', ¬ Slide stone free l l') ∧ ∀ q, a = stone → l ≠ free :: q := by
  constructor
  · intro h
    exact ⟨fun l' hl => h _ (hl.cons a), by
      rintro q rfl rfl
      exact h _ (.here q)⟩
  · rintro ⟨hl, hq⟩ l'' h
    rcases slide_cons.mp h with ⟨q, ha, hl', -⟩ | ⟨l', h', -⟩
    · exact hq q ha hl'
    · exact hl l' h'

theorem settled_nil : ∀ l', ¬ Slide stone free [] l' := fun _ h => nomatch h

theorem Settles.perm (h : Settles stone free l l') : l.Perm l' := by
  obtain ⟨hrun, -⟩ := h
  induction hrun with
  | refl => exact List.Perm.refl l
  | tail _ hstep ih => exact ih.trans hstep.perm

theorem Settles.getElem? (h : Settles stone free l l') (hs : x ≠ stone) (hf : x ≠ free) (i : ℕ) :
    l[i]? = some x ↔ l'[i]? = some x := by
  obtain ⟨hrun, -⟩ := h
  induction hrun with
  | refl => exact Iff.rfl
  | tail _ hstep ih => exact ih.trans (hstep.getElem? hs hf i)

/-! ### At rest -/

variable [DecidableEq α]

theorem settle_cons_of_ne (h : a ≠ stone) (l : List α) :
    settle stone free (a :: l) = a :: settle stone free l := if_neg h

@[simp] theorem settle_cons_stone (stone free : α) (l : List α) :
    settle stone free (stone :: l) = place stone free (settle stone free l) := if_pos rfl

theorem place_free (stone free : α) (l : List α) :
    place stone free (free :: l) = free :: place stone free l := if_pos rfl

/-- **A stone is placed** in front of the first cell that is not free. -/
theorem place_eq (hfree : ∀ i < k, l[i]? = some free) (hk : l[k]? ≠ some free) :
    place stone free l = (free :: l).set k stone := by
  induction k generalizing l with
  | zero =>
    cases l with
    | nil => rfl
    | cons a l => exact if_neg fun ha => hk (congrArg some ha)
  | succ k ih =>
    cases l with
    | nil => exact absurd (hfree 0 (Nat.succ_pos k)) nofun
    | cons a l =>
      obtain rfl : a = free := Option.some.inj (hfree 0 (Nat.succ_pos k))
      rw [place_free, List.set_cons_succ]
      exact congrArg (a :: ·) (ih (fun i hi => hfree (i + 1) (Nat.succ_lt_succ hi)) hk)

omit [DecidableEq α] in
theorem slides_cons (a : α) (h : Relation.ReflTransGen (Slide stone free) l l') :
    Relation.ReflTransGen (Slide stone free) (a :: l) (a :: l') :=
  h.lift (a :: ·) fun _ _ hs => hs.cons a

theorem slides_place (l : List α) :
    Relation.ReflTransGen (Slide stone free) (stone :: l) (place stone free l) := by
  induction l with
  | nil => exact .refl
  | cons a l ih =>
    rw [place]
    split_ifs with ha
    · rw [ha]
      exact (slides_cons free ih).head (.here l)
    · exact .refl

/-- The stones do slide as in `Candcpp.settle`. -/
theorem slides_settle (l : List α) :
    Relation.ReflTransGen (Slide stone free) l (settle stone free l) := by
  induction l with
  | nil => exact .refl
  | cons a l ih =>
    rw [settle]
    split_ifs with ha
    · rw [ha]
      exact (slides_cons stone ih).trans (slides_place _)
    · exact slides_cons a ih

theorem settled_place (hne : stone ≠ free) (h : ∀ l', ¬ Slide stone free l l') :
    ∀ l', ¬ Slide stone free (place stone free l) l' := by
  induction l with
  | nil => exact settled_cons.mpr ⟨settled_nil, nofun⟩
  | cons a l ih =>
    rw [place]
    split_ifs with ha
    · exact settled_cons.mpr ⟨ih (settled_cons.mp h).1, fun q hq => absurd hq.symm hne⟩
    · exact settled_cons.mpr ⟨h, fun q _ hq => ha (List.cons.inj hq).1⟩

/-- None of the stones can go on. -/
theorem settled_settle (hne : stone ≠ free) (l : List α) :
    ∀ l', ¬ Slide stone free (settle stone free l) l' := by
  induction l with
  | nil => exact settled_nil
  | cons a l ih =>
    rw [settle]
    split_ifs with ha
    · exact settled_place hne ih
    · exact settled_cons.mpr ⟨ih, fun q hq => absurd hq ha⟩

/-- **Where the stones come to rest** is the same after one of them has slid. -/
theorem Slide.settle_eq (hne : stone ≠ free) (h : Slide stone free l l') :
    settle stone free l = settle stone free l' := by
  induction h with
  | here l =>
    rw [settle_cons_stone, settle_cons_of_ne hne.symm, settle_cons_of_ne hne.symm,
      settle_cons_stone, place_free]
  | cons a _ ih => rw [settle, settle, ih]

theorem place_of_settled (h : ∀ l', ¬ Slide stone free (stone :: l) l') :
    place stone free l = stone :: l := by
  cases l with
  | nil => rfl
  | cons a l => exact if_neg fun ha => (settled_cons.mp h).2 l rfl (congrArg (· :: l) ha)

/-- What is at rest stays as it is. -/
theorem settle_of_settled (h : ∀ l', ¬ Slide stone free l l') : settle stone free l = l := by
  induction l with
  | nil => rfl
  | cons a l ih =>
    rw [settle, ih (settled_cons.mp h).1]
    split_ifs with ha
    · subst ha
      exact place_of_settled h
    · rfl

/-- **However the stones slide**, they come to rest in the same way. -/
theorem settles_iff (hne : stone ≠ free) :
    Settles stone free l l' ↔ l' = settle stone free l := by
  constructor
  · rintro ⟨hrun, hsettled⟩
    rw [← settle_of_settled hsettled]
    clear hsettled
    induction hrun with
    | refl => rfl
    | tail _ hstep ih => rw [← hstep.settle_eq hne, ih]
  · rintro rfl
    exact ⟨slides_settle l, settled_settle hne l⟩

end Candcpp
