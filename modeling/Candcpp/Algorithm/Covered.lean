import Candcpp.Cpp.Loop
import Candcpp.Cpp.Tally
import Candcpp.Order.Frontier

/-!
# Windows that cover a string

What the programs of `76.cpp` and `3297.cpp` have in common, which look for the windows of a string
that contain every letter at least as often as another string does (`Candcpp.Covered.Covers`). They
count the characters of both in arrays, and compare these letter by letter
(`Candcpp.Covered.coveredLoop_eq`).

A window that contains one that covers the string covers it as well
(`Candcpp.Covered.extends_covers`), and the empty window covers nothing but the empty string.
-/

namespace Candcpp

open Cpp

namespace Covered

/-! ### The code -/

/-- `for (char c : t) cnt_t[c - base]++`. -/
def countAll (base : ℤ) (t : List Int8) (cnt : Arr ℤ) : Exec (Arr ℤ) :=
  t.foldlM (fun cnt c => bump cnt (c.toInt - base) 1) cnt

/-- `for (int i = first; i <= last; i++)` of `is_covered`: whether the loop goes to its end. -/
def coveredLoop (cntS cntT : Arr ℤ) (i last : ℤ) : Exec Bool := do
  let +zeta coveredLoop : type_of% coveredLoop := by apply coveredLoop
  if i ≤ last then
    let x ← cntS.getInt i
    let y ← cntT.getInt i
    if x < y then
      pure false
    else
      coveredLoop cntS cntT (i + 1) last
  else
    pure true
partial_fixpoint

/-! ### The windows -/

/-- **The string `w` covers `t`**: it contains every character at least as often. -/
def Covers (w t : List Int8) : Prop := ∀ c, t.count c ≤ w.count c

/-- The window of `s` from `l` on and before `r` covers `t`. -/
def Covering (s t : List Int8) (l r : ℕ) : Prop := Covers (between s l r) t

variable {s t w : List Int8} {c : Int8} {i last : ℤ} {n l r : ℕ}

/-- **A larger window covers** what a smaller one does. -/
theorem extends_covers (s t : List Int8) : Extends (Covering s t) := by
  intro l r l' r' hl hlr hr h c
  refine (h c).trans ?_
  rw [between_append hl (hlr.le.trans hr), between_append (l := s) hlr.le hr, List.count_append,
    List.count_append]
  omega

/-- The empty window covers nothing. -/
theorem not_covering_self (ht : t ≠ []) (s : List Int8) (l : ℕ) : ¬ Covering s t l l := by
  intro h
  obtain ⟨c, hc⟩ := List.exists_mem_of_ne_nil t ht
  have hle := h c
  rw [between_self, List.count_nil] at hle
  exact absurd (List.count_pos_iff.mpr hc) (by omega)

/-! ### The counts -/

/-- The counts of a string in an array that begins with the index `base`. -/
theorem countAll_eq (base : ℤ) (f : ℤ → ℤ) (ht : ∀ c ∈ t, 0 ≤ c.toInt - base ∧ c.toInt - base < n) :
    countAll base t (Arr.table n f) = pure (Arr.table n fun x => f x + tally t (x + base)) := by
  obtain ⟨_, hrun, rfl⟩ := foldlM_eq (f := fun cnt c => bump cnt (c.toInt - base) 1)
    (s := Arr.table n f) (l := t)
    (fun pre cnt => cnt = Arr.table n fun x => f x + tally pre (x + base))
    (by simp only [tally_nil, add_zero])
    (by
      rintro pre c _ hpre rfl
      have hmem : c ∈ t := hpre.subset (List.mem_append_right pre (List.mem_singleton_self c))
      refine ⟨_, bump_table (ht c hmem).1 (ht c hmem).2 _ 1, congrArg (Arr.table n) ?_⟩
      funext x
      rw [tally_concat, add_assoc]
      simp only [eq_sub_iff_add_eq])
  exact hrun

/-- The array of the counts of a string. -/
def counts (w : List Int8) : Arr ℤ := Arr.table 128 (tally w)

theorem getInt_counts (h0 : 0 ≤ i) (hi : i < 128) (w : List Int8) :
    (counts w).getInt i = pure (tally w i) := getInt_table h0 hi _

theorem fill_eq_counts : Arr.fill 128 0 = counts [] := rfl

/-- **A character comes in** at the end. -/
theorem bump_counts_concat (hc : 0 ≤ c.toInt) (w : List Int8) :
    bump (counts w) c.toInt 1 = pure (counts (w ++ [c])) := by
  have hlt := c.toInt_lt
  rw [counts, bump_table hc (by omega)]
  exact congrArg (fun f => pure (Arr.table 128 f)) (funext fun x => (tally_concat w c x).symm)

/-- **A character goes out** at the start. -/
theorem bump_counts_cons (hc : 0 ≤ c.toInt) (w : List Int8) :
    bump (counts (c :: w)) c.toInt (-1) = pure (counts w) := by
  have hlt := c.toInt_lt
  rw [counts, bump_table hc (by omega)]
  exact congrArg (fun f => pure (Arr.table 128 f)) (funext fun x => (tally_cons w c x).symm)

theorem countAll_counts (ht : ∀ c ∈ t, 0 ≤ c.toInt) :
    countAll 0 t (Arr.fill 128 0) = pure (counts t) := by
  have hrange : ∀ c ∈ t, 0 ≤ c.toInt - 0 ∧ c.toInt - 0 < (128 : ℕ) := by
    intro c hc
    have hpos := ht c hc
    have hlt := c.toInt_lt
    omega
  rw [Arr.fill_eq_table, countAll_eq 0 _ hrange]
  simp only [zero_add, add_zero]
  rfl

/-- **The loop compares** the counts from the index `i` on. -/
theorem coveredLoop_eq (w t : List Int8) (h0 : 0 ≤ i) (hi : i ≤ last + 1) (hlast : last < 128) :
    ∃ b, coveredLoop (counts w) (counts t) i last = pure b ∧
      (b = true ↔ ∀ x, i ≤ x → x ≤ last → tally t x ≤ tally w x) := by
  obtain ⟨d, hd⟩ := Int.eq_ofNat_of_zero_le (sub_nonneg.mpr hi)
  induction d generalizing i with
  | zero =>
    refine ⟨true, by rw [coveredLoop, if_neg (by omega)], iff_of_true rfl fun x hx hx' => ?_⟩
    omega
  | succ d ih =>
    rw [coveredLoop, if_pos (by omega), getInt_counts h0 (by omega), pure_bind,
      getInt_counts h0 (by omega), pure_bind]
    by_cases hlt : tally w i < tally t i
    · rw [if_pos hlt]
      refine ⟨false, rfl, iff_of_false Bool.false_ne_true fun hall => ?_⟩
      exact hlt.not_ge (hall i le_rfl (by omega))
    · rw [if_neg hlt]
      obtain ⟨b, hrun, hb⟩ := ih (i := i + 1) (by omega) (by omega) (by omega)
      refine ⟨b, hrun, hb.trans ⟨fun hall x hx hx' => ?_, fun hall x hx => hall x (by omega)⟩⟩
      rcases eq_or_lt_of_le hx with rfl | hlt'
      · exact not_lt.mp hlt
      · exact hall x (by omega) hx'

/-- **What has to be compared** are the characters of the string that is to be covered. -/
theorem covers_iff {P : ℤ → Prop} (ht : ∀ c ∈ t, P c.toInt) :
    Covers w t ↔ ∀ x, P x → tally t x ≤ tally w x := by
  constructor
  · intro h x _
    by_cases hx : ∃ c ∈ t, c.toInt = x
    · obtain ⟨c, -, rfl⟩ := hx
      rw [tally_toInt, tally_toInt]
      exact_mod_cast h c
    · rw [tally_eq_zero (by simpa using hx)]
      exact tally_nonneg w x
  · intro h c
    by_cases hc : c ∈ t
    · have hle := h c.toInt (ht c hc)
      rw [tally_toInt, tally_toInt] at hle
      exact_mod_cast hle
    · rw [List.count_eq_zero.mpr hc]
      exact Nat.zero_le _

end Covered

end Candcpp
