import Mathlib

/-!
# Exchanges within classes of positions

The positions of a list are divided into classes, and two elements may be exchanged if their
positions are of one class: `Candcpp.Exchange`. Which lists can be reached from a list by any number
of exchanges?

The elements at the positions of a class (`Candcpp.part`) stay the same, up to their order. And this
is all that stays: the first element can be brought in from any position of its class, and then the
second one, and so on. So **a list of the same length is reached exactly if it has the same elements
in each class** (`Candcpp.exchanges_iff`).
-/

namespace Candcpp

variable {α κ : Type}

/-- **Two elements** at positions of one class are exchanged. -/
inductive Exchange (c : ℕ → κ) : List α → List α → Prop
  | mk (l : List α) {i j : ℕ} {x y : α} (hi : l[i]? = some x) (hj : l[j]? = some y)
      (hc : c i = c j) : Exchange c l ((l.set i y).set j x)

/-- What can be reached by any number of exchanges. -/
abbrev Exchanges (c : ℕ → κ) : List α → List α → Prop := Relation.ReflTransGen (Exchange c)

variable {c : ℕ → κ} {l l' : List α} {i : ℕ} {x y : α}

theorem Exchange.length_eq (h : Exchange c l l') : l'.length = l.length := by
  obtain ⟨hi, hj, hc⟩ := h
  rw [List.length_set, List.length_set]

/-- The exchanges behind the first position. -/
theorem Exchanges.cons (h : Exchanges (fun i => c (i + 1)) l l') (x : α) :
    Exchanges c (x :: l) (x :: l') := by
  refine Relation.ReflTransGen.lift (x :: ·) ?_ _ _ h
  rintro l _ ⟨hi, hj, hc⟩
  exact Exchange.mk (x :: l) (i := _ + 1) (j := _ + 1) hi hj hc

/-- **The first element** is brought in from its position. -/
theorem exists_exchange_cons (hi : (x :: l)[i]? = some y) (hc : c 0 = c i) :
    ∃ t, Exchange c (x :: l) (y :: t) := by
  have hx : (x :: l)[0]? = some x := rfl
  have hstep := Exchange.mk _ hx hi hc
  cases i with
  | zero =>
    obtain rfl := Option.some.inj hi
    exact ⟨_, hstep⟩
  | succ i => exact ⟨_, hstep⟩

variable [DecidableEq κ]

/-- The elements at the positions of the class `k`. -/
def part (c : ℕ → κ) (k : κ) : List α → List α
  | [] => []
  | x :: l => if c 0 = k then x :: part (fun i => c (i + 1)) k l else part (fun i => c (i + 1)) k l

variable {k : κ}

/-! ### The elements of a class -/

theorem mem_part : x ∈ part c k l ↔ ∃ i, l[i]? = some x ∧ c i = k := by
  induction l generalizing c with
  | nil => simp [part]
  | cons y l ih =>
    have hcons : (∃ i, (y :: l)[i]? = some x ∧ c i = k) ↔
        y = x ∧ c 0 = k ∨ ∃ i, l[i]? = some x ∧ c (i + 1) = k := by
      constructor
      · rintro ⟨i, hi, hk⟩
        cases i with
        | zero => exact .inl ⟨Option.some.inj hi, hk⟩
        | succ i => exact .inr ⟨i, hi, hk⟩
      · rintro (⟨rfl, hk⟩ | ⟨i, hi, hk⟩)
        · exact ⟨0, rfl, hk⟩
        · exact ⟨i + 1, hi, hk⟩
    rw [part, hcons]
    split_ifs with h
    · rw [List.mem_cons, ih, and_iff_left h, eq_comm]
    · rw [ih, or_iff_right fun hy => h hy.2]

theorem part_concat (c : ℕ → κ) (k : κ) (l : List α) (x : α) :
    part c k (l ++ [x]) = if c l.length = k then part c k l ++ [x] else part c k l := by
  induction l generalizing c with
  | nil => rfl
  | cons y l ih =>
    rw [List.cons_append, part, part, ih, List.length_cons]
    split_ifs <;> rfl

/-- Another element at a position of the class. -/
theorem part_set_perm (hi : l[i]? = some x) (hk : c i = k) (y : α) :
    (x :: part c k (l.set i y)).Perm (y :: part c k l) := by
  induction l generalizing c i with
  | nil => exact nomatch hi
  | cons z l ih =>
    cases i with
    | zero =>
      obtain rfl := Option.some.inj hi
      rw [List.set_cons_zero, part, if_pos hk, part, if_pos hk]
      exact List.Perm.swap _ _ _
    | succ i =>
      have hrest := ih (c := fun i => c (i + 1)) hi hk
      rw [List.set_cons_succ, part, part]
      split_ifs
      · exact (List.Perm.swap _ _ _).trans ((hrest.cons z).trans (List.Perm.swap _ _ _))
      · exact hrest

/-- Another element at a position of another class. -/
theorem part_set_of_ne (hk : c i ≠ k) (l : List α) (y : α) :
    part c k (l.set i y) = part c k l := by
  induction l generalizing c i with
  | nil => rfl
  | cons z l ih =>
    cases i with
    | zero => rw [List.set_cons_zero, part, if_neg hk, part, if_neg hk]
    | succ i => rw [List.set_cons_succ, part, part, ih (c := fun i => c (i + 1)) hk]

/-- **An exchange** keeps the elements of each class. -/
theorem Exchange.part_perm (h : Exchange c l l') (k : κ) : (part c k l').Perm (part c k l) := by
  cases h with
  | @mk i j x y hi hj hc =>
    by_cases hk : c i = k
    · -- The second element is still at its position, which may be that of the first one.
      have hj' : (l.set i y)[j]? = some y := by
        rw [List.getElem?_set, if_pos (List.getElem?_eq_some_iff.mp hi).1, hj, ite_self]
      have hset := part_set_perm hi hk y
      have hset' := part_set_perm hj' (hc ▸ hk) x
      exact (hset'.trans hset).cons_inv
    · rw [part_set_of_ne (hc ▸ hk), part_set_of_ne hk]

theorem Exchanges.part_perm (h : Exchanges c l l') (k : κ) :
    (part c k l).Perm (part c k l') := by
  induction h with
  | refl => exact List.Perm.refl _
  | tail _ hstep ih => exact ih.trans (hstep.part_perm k).symm

/-! ### Every list with the same elements is reached -/

theorem part_perm_of_cons (h : ∀ k, (part c k (x :: l)).Perm (part c k (x :: l'))) (k : κ) :
    (part (fun i => c (i + 1)) k l).Perm (part (fun i => c (i + 1)) k l') := by
  have hk := h k
  rw [part, part] at hk
  split_ifs at hk
  · exact hk.cons_inv
  · exact hk

/-- **A list is reached** exactly if it has the same elements in each class. -/
theorem exchanges_iff (hlen : l.length = l'.length) :
    Exchanges c l l' ↔ ∀ k, (part c k l).Perm (part c k l') := by
  refine ⟨Exchanges.part_perm, fun h => ?_⟩
  induction l' generalizing c l with
  | nil =>
    obtain rfl := List.length_eq_zero_iff.mp hlen
    exact Relation.ReflTransGen.refl
  | cons y l' ih =>
    obtain ⟨x, l, rfl⟩ := List.exists_cons_of_length_eq_add_one hlen
    -- The first element of the other list has a position of the same class.
    have hy : y ∈ part c (c 0) (y :: l') := mem_part.mpr ⟨0, rfl, rfl⟩
    obtain ⟨i, hi, hci⟩ := mem_part.mp ((h (c 0)).mem_iff.mpr hy)
    obtain ⟨t, ht⟩ := exists_exchange_cons hi hci.symm
    have hperm : ∀ k, (part c k (y :: t)).Perm (part c k (y :: l')) :=
      fun k => (ht.part_perm k).trans (h k)
    have hlen' : t.length = l'.length := by
      have hsame : (y :: t).length = (x :: l).length := ht.length_eq
      exact Nat.succ.inj (hsame.trans hlen)
    exact (ih hlen' (part_perm_of_cons hperm)).cons y |>.head ht

end Candcpp
