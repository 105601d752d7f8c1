import Mathlib

/-!
# Taking one by one what gets less

Values of which one is taken after the other, and whenever one is taken, all that are left and
positive get less by one: `Candcpp.Taken`. After `t` turns a value that has not been taken is worth
`Candcpp.worth t` of what it was.

A greater value loses at least as much by waiting as a smaller one does. So nothing is lost if the
greatest value is taken first (`Candcpp.worth_add_gain_le`), and the most that can be taken are the
greatest values in their order (`Candcpp.isGreatest_taken`): `Candcpp.gain` of the sorted values.
-/

namespace Candcpp

/-- A value that is not taken gets less by one if it is positive. -/
def lowered (x : ℤ) : ℤ := if 0 < x then x - 1 else x

/-- **The sum of `k` values** taken one by one out of `M`. -/
inductive Taken : Multiset ℤ → ℕ → ℤ → Prop
  | none (M : Multiset ℤ) : Taken M 0 0
  | some {M : Multiset ℤ} {k : ℕ} {s : ℤ} (a : ℤ) : Taken (M.map lowered) k s →
      Taken (a ::ₘ M) (k + 1) (a + s)

/-- What is left of a value after `t` turns. -/
def worth (t x : ℤ) : ℤ := max (x - t) 0

/-- What the first `k` values of a list come to, one after the other from the turn `t` on. -/
def gain (t : ℤ) : ℕ → List ℤ → ℤ
  | 0, _ => 0
  | _, [] => 0
  | k + 1, a :: l => worth t a + gain (t + 1) k l

variable {a b s t x : ℤ} {k : ℕ} {l : List ℤ} {M : Multiset ℤ}

/-! ### The worth of a value -/

theorem worth_zero (h : 0 ≤ x) : worth 0 x = x := by
  rw [worth, sub_zero, max_eq_left h]

theorem worth_of_le (h : x ≤ t) : worth t x = 0 := max_eq_right (by omega)

theorem worth_of_lt (h : t < x) : worth t x = x - t := max_eq_left (by omega)

theorem worth_mono (t : ℤ) (h : a ≤ b) : worth t a ≤ worth t b := max_le_max (by omega) le_rfl

/-- **A turn passes.** -/
theorem lowered_worth (t x : ℤ) : lowered (worth t x) = worth (t + 1) x := by
  rcases le_or_gt x t with h | h
  · rw [worth_of_le h, worth_of_le (by omega), lowered, if_neg (lt_irrefl 0)]
  · rw [worth_of_lt h, lowered, if_pos (by omega), worth, max_eq_left (by omega)]
    ring

/-- **A greater value loses more** by waiting for a turn. -/
theorem worth_add_worth_le (t : ℤ) (h : a ≤ b) :
    worth t a + worth (t + 1) b ≤ worth t b + worth (t + 1) a := by
  rcases le_or_gt a t with ha | ha
  · have hmono : worth (t + 1) b ≤ worth t b := max_le_max (by omega) le_rfl
    rw [worth_of_le ha, worth_of_le (show a ≤ t + 1 by omega)]
    omega
  · rw [worth_of_lt ha, worth_of_lt (show t < b by omega), worth, worth, max_eq_left (by omega),
      max_eq_left (by omega)]
    omega

/-! ### The greatest first -/

@[simp] theorem gain_zero (t : ℤ) (l : List ℤ) : gain t 0 l = 0 := rfl

@[simp] theorem gain_nil (t : ℤ) (k : ℕ) : gain t k [] = 0 := by
  cases k <;> rfl

@[simp] theorem gain_cons (t : ℤ) (k : ℕ) (a : ℤ) (l : List ℤ) :
    gain t (k + 1) (a :: l) = worth t a + gain (t + 1) k l := rfl

/-- Values that are used up come to nothing. -/
theorem gain_eq_zero (h : ∀ x ∈ l, x ≤ t) (k : ℕ) : gain t k l = 0 := by
  induction l generalizing k t with
  | nil => exact gain_nil t k
  | cons a l ih =>
    cases k with
    | zero => rfl
    | succ k =>
      have ha := h a List.mem_cons_self
      rw [gain_cons, worth_of_le ha, ih fun x hx => ?_, add_zero]
      have hx := h x (List.mem_cons_of_mem a hx)
      omega

/-- **Nothing is lost** if the greatest value is taken first. -/
theorem worth_add_gain_le (hl : l.Pairwise (· ≥ ·)) (hb : b ∈ l) (t : ℤ) (k : ℕ) :
    worth t b + gain (t + 1) k (l.erase b) ≤ gain t (k + 1) l := by
  induction l generalizing t k with
  | nil => exact absurd hb List.not_mem_nil
  | cons a l ih =>
    obtain ⟨hfirst, hrest⟩ := List.pairwise_cons.mp hl
    rcases eq_or_ne b a with rfl | hne
    · rw [List.erase_cons_head, gain_cons]
    · have hmem : b ∈ l := (List.mem_cons.mp hb).resolve_left hne
      rw [List.erase_cons_tail (by simpa using hne.symm), gain_cons]
      cases k with
      | zero =>
        have hworth := worth_mono t (hfirst b hmem)
        simpa only [gain_zero, add_zero] using hworth
      | succ k =>
        -- The two values change places: `b` waits for one more turn, and `a` for one less.
        have hswap := worth_add_worth_le t (hfirst b hmem)
        have hle := ih hrest hmem (t + 1) k
        rw [gain_cons]
        linarith

/-- **No more can be taken** than the greatest values. -/
theorem Taken.le_gain (h : Taken M k s) (hl : l.Pairwise (· ≥ ·))
    (hM : M = (l.map (worth t) : List ℤ)) : s ≤ gain t k l := by
  induction h generalizing l t with
  | none M => rw [gain_zero]
  | @some M k s a _ ih =>
    obtain ⟨b, hb, rfl⟩ : ∃ b ∈ l, worth t b = a := by
      rw [← List.mem_map, ← Multiset.mem_coe, ← hM]
      exact Multiset.mem_cons_self a M
    have hM' : M = ((l.erase b).map (worth t) : List ℤ) := by
      have hperm := (List.perm_cons_erase hb).map (worth t)
      rw [← Multiset.coe_eq_coe, ← hM, List.map_cons, ← Multiset.cons_coe] at hperm
      exact (Multiset.cons_inj_right _).mp hperm
    have hle := ih (t := t + 1) (hl.sublist List.erase_sublist) (by
      rw [hM', Multiset.map_coe, List.map_map]
      exact congrArg _ (List.map_congr_left fun x _ => lowered_worth t x))
    calc worth t b + s ≤ worth t b + gain (t + 1) k (l.erase b) := by omega
      _ ≤ gain t (k + 1) l := worth_add_gain_le hl hb t k

/-- The first values can be taken in their order. -/
theorem taken_gain (hk : k ≤ l.length) (t : ℤ) :
    Taken (l.map (worth t) : List ℤ) k (gain t k l) := by
  induction k generalizing l t with
  | zero => exact .none _
  | succ k ih =>
    cases l with
    | nil => exact absurd hk (Nat.not_succ_le_zero k)
    | cons a l =>
      rw [List.map_cons, ← Multiset.cons_coe, gain_cons]
      refine .some _ ?_
      have hrest := ih (Nat.le_of_succ_le_succ hk) (t + 1)
      rwa [Multiset.map_coe, List.map_map,
        List.map_congr_left fun x _ => show (lowered ∘ worth t) x = worth (t + 1) x from
          lowered_worth t x]

/-- **The most that can be taken** are the greatest values in their order. -/
theorem isGreatest_taken (hl : l.Pairwise (· ≥ ·)) (hnonneg : ∀ x ∈ l, 0 ≤ x) (hk : k ≤ l.length) :
    IsGreatest {s | Taken l k s} (gain 0 k l) := by
  have hworth : l = l.map (worth 0) :=
    ((List.map_congr_left fun x hx => worth_zero (hnonneg x hx)).trans l.map_id).symm
  constructor
  · have htaken := taken_gain hk 0
    rwa [← hworth] at htaken
  · intro s hs
    exact Taken.le_gain hs hl (congrArg _ hworth)

end Candcpp
