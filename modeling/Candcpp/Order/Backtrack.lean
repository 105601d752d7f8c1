import Mathlib.Data.List.Nodup

/-!
# Backtracking

A search that makes one choice after the other, each of them out of the same list, and goes on only
with those that are allowed after the ones before. `Candcpp.extensions` lists what it finds, in the
order in which a depth-first search finds it.

**It finds all sequences of allowed choices** of the length that is asked for, and no others
(`Candcpp.mem_extensions`), and each of them once (`Candcpp.nodup_extensions`).
-/

namespace Candcpp

variable {α : Type} (choices : List α) (ok : List α → α → Prop)

/-- The choices `m` are allowed, each of them after those of `l` and the ones in front of it. -/
inductive Allowed : List α → List α → Prop
  /-- There are no choices. -/
  | nil {l : List α} : Allowed l []
  /-- One choice, and the others after it. -/
  | cons {l m : List α} {x : α} (hx : x ∈ choices) (hok : ok l x) (h : Allowed (l ++ [x]) m) :
      Allowed l (x :: m)

/-- What is found with `k` more choices after those of `l`. -/
def extensions [∀ l x, Decidable (ok l x)] : ℕ → List α → List (List α)
  | 0, l => [l]
  | k + 1, l => choices.flatMap fun x => if ok l x then extensions k (l ++ [x]) else []

variable {choices ok} {l l' m : List α} {x : α} {k : ℕ}

theorem allowed_cons : Allowed choices ok l (x :: m) ↔
    (x ∈ choices ∧ ok l x) ∧ Allowed choices ok (l ++ [x]) m := by
  constructor
  · rintro (_ | ⟨hx, hok, h⟩)
    exact ⟨⟨hx, hok⟩, h⟩
  · rintro ⟨⟨hx, hok⟩, h⟩
    exact .cons hx hok h

/-- **Choices are allowed** if each one is. -/
theorem allowed_iff : Allowed choices ok l m ↔
    ∀ pre x post, m = pre ++ x :: post → x ∈ choices ∧ ok (l ++ pre) x := by
  induction m generalizing l with
  | nil => exact iff_of_true .nil fun pre x post h => absurd h (by simp)
  | cons y m ih =>
    rw [allowed_cons, ih]
    constructor
    · rintro ⟨hy, hm⟩ pre x post h
      cases pre with
      | nil =>
        obtain ⟨rfl, rfl⟩ := List.cons.inj h
        simpa using hy
      | cons z pre =>
        obtain ⟨rfl, rfl⟩ := List.cons.inj h
        simpa using hm pre x post rfl
    · refine fun h => ⟨by simpa using h [] y m rfl, fun pre x post hm => ?_⟩
      simpa using h (y :: pre) x post (by rw [hm, List.cons_append])

variable [∀ l x, Decidable (ok l x)]

/-- **What is found** are the sequences of allowed choices. -/
theorem mem_extensions : l' ∈ extensions choices ok k l ↔
    ∃ m, l' = l ++ m ∧ m.length = k ∧ Allowed choices ok l m := by
  induction k generalizing l with
  | zero =>
    rw [extensions, List.mem_singleton]
    constructor
    · rintro rfl
      exact ⟨[], (List.append_nil _).symm, rfl, .nil⟩
    · rintro ⟨m, rfl, hm, -⟩
      rw [List.eq_nil_of_length_eq_zero hm, List.append_nil]
  | succ k ih =>
    rw [extensions, List.mem_flatMap]
    constructor
    · rintro ⟨x, hx, hmem⟩
      split_ifs at hmem with hok
      · obtain ⟨m, rfl, hm, h⟩ := ih.mp hmem
        exact ⟨x :: m, by simp, by rw [List.length_cons, hm], .cons hx hok h⟩
      · exact absurd hmem List.not_mem_nil
    · rintro ⟨m, rfl, hm, h⟩
      cases h with
      | nil => exact absurd hm.symm (Nat.succ_ne_zero k)
      | @cons _ m x hx hok h =>
        refine ⟨x, hx, ?_⟩
        rw [if_pos hok, ih]
        exact ⟨m, by simp, Nat.succ.inj hm, h⟩

/-- **Nothing is found twice.** -/
theorem nodup_extensions (h : choices.Nodup) : (extensions choices ok k l).Nodup := by
  induction k generalizing l with
  | zero => exact List.nodup_singleton l
  | succ k ih =>
    rw [extensions, List.nodup_flatMap]
    refine ⟨fun x _ => ?_, h.imp fun {x y} hxy => ?_⟩
    · split_ifs
      · exact ih
      · exact List.nodup_nil
    · -- what is found after different choices differs at that position
      refine List.disjoint_left.mpr fun l' hx hy => ?_
      dsimp only at hx hy
      split_ifs at hx hy
      · obtain ⟨m, rfl, -, -⟩ := mem_extensions.mp hx
        obtain ⟨m', heq, -, -⟩ := mem_extensions.mp hy
        rw [List.append_assoc, List.append_assoc, List.append_cancel_left_eq] at heq
        exact hxy (List.cons.inj heq).1
      · exact List.not_mem_nil hy
      · exact List.not_mem_nil hx
      · exact List.not_mem_nil hx

end Candcpp
