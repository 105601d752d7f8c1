import Candcpp.Algorithm.Covered

/-!
# The shortest window that covers a string

`minWindow` of `76.cpp`, which looks for the shortest substring of `s` that contains every letter at
least as often as `t` does. It moves a window over `s`; as long as the window covers `t` it is
compared with the best one so far, and loses its first character.

A window is only taken if it is shorter than the best one, so that of several shortest ones it is
the leftmost that stays (`Candcpp.MinWindow.slideLoop_eq`). **This one is returned**, and the empty
string exactly if no substring covers `t` (`Candcpp.MinWindow.minWindow_eq`).

The counts are in arrays of `128` elements, and a character is an index. So `s` has characters of
ASCII only, of which only the letters are compared, and `t` has letters only. A position is not
bounded, since a string has no more characters than an `int` counts.
-/

namespace Candcpp

open Cpp Covered

namespace MinWindow

/-! ### The code -/

/-- `is_covered`. -/
def isCovered (cntS cntT : Arr ℤ) : Exec Bool := do
  if ← coveredLoop cntS cntT (code 'A') (code 'Z') then
    coveredLoop cntS cntT (code 'a') (code 'z')
  else
    pure false

/-- The variables of `minWindow` that change. -/
structure Sliding where
  cntS : Arr ℤ
  left : ℤ
  ansLeft : ℤ
  ansRight : ℤ

/-- `if (right - left < ans_right - ans_left)`, with its body. -/
def record (right : ℤ) (v : Sliding) : Sliding :=
  if right - v.left < v.ansRight - v.ansLeft then
    { v with ansLeft := v.left, ansRight := right }
  else
    v

/-- `while (is_covered(cnt_s, cnt_t))`. -/
def shrinkLoop (s : List Int8) (cntT : Arr ℤ) (right : ℤ) (v : Sliding) : Exec Sliding := do
  let +zeta shrinkLoop : type_of% shrinkLoop := by apply shrinkLoop
  if ← isCovered v.cntS cntT then
    let v := record right v
    let c ← nth s v.left
    let cntS ← bump v.cntS c.toInt (-1)
    shrinkLoop s cntT right { v with cntS := cntS, left := v.left + 1 }
  else
    pure v
partial_fixpoint

/-- `for (int right = 0; right < m; ++right)`. -/
def slideLoop (s : List Int8) (cntT : Arr ℤ) (m right : ℤ) (v : Sliding) : Exec Sliding := do
  let +zeta slideLoop : type_of% slideLoop := by apply slideLoop
  if right < m then
    let c ← nth s right
    let cntS ← bump v.cntS c.toInt 1
    let v ← shrinkLoop s cntT right { v with cntS := cntS }
    slideLoop s cntT m (right + 1) v
  else
    pure v
partial_fixpoint

/-- `s.substr(pos, count)`, of which a negative count is a very large one. -/
def substr (s : List Int8) (pos count : ℤ) : Exec (List Int8) :=
  if 0 ≤ pos ∧ pos ≤ s.length then
    let rest := s.drop pos.toNat
    pure (if 0 ≤ count then rest.take count.toNat else rest)
  else
    throw .outOfRange

/-- `minWindow`. -/
def minWindow (s t : List Int8) : Exec (List Int8) := do
  let m : ℤ := s.length
  let cntT ← countAll 0 t (Arr.fill 128 0)
  let v ← slideLoop s cntT m 0
    { cntS := Arr.fill 128 0, left := 0, ansLeft := -1, ansRight := m }
  if v.ansLeft < 0 then
    pure []
  else
    substr s v.ansLeft (v.ansRight - v.ansLeft + 1)

/-! ### The right answer -/

/-- The index of a letter. -/
def Letter (x : ℤ) : Prop := (65 ≤ x ∧ x ≤ 90) ∨ 97 ≤ x ∧ x ≤ 122

instance (x : ℤ) : Decidable (Letter x) := inferInstanceAs (Decidable (_ ∨ _))

/-- **The right answer**: the leftmost of the shortest windows that cover `t`, or the empty string
if there is none. -/
def Answer (s t w : List Int8) : Prop :=
  (∃ a b, Leftmost (Covering s t) s.length a b ∧ w = between s a b) ∨
    (goodWindows (Covering s t) s.length = ∅ ∧ w = [])

/-- What `ans_left` and `ans_right` say of the best window so far. -/
def Bounds (m : ℕ) : Option (ℕ × ℕ) → ℤ → ℤ → Prop
  | none, ansLeft, ansRight => ansLeft = -1 ∧ ansRight = m
  | some (a, b), ansLeft, ansRight => ansLeft = a ∧ ansRight = (b : ℤ) - 1

variable {s t w : List Int8} {v : Sliding} {best : Option (ℕ × ℕ)} {k n r : ℕ}

/-- **The test of the loop**: whether the window covers `t`. -/
theorem isCovered_eq (ht : ∀ c ∈ t, Letter c.toInt) :
    ∃ b, isCovered (counts w) (counts t) = pure b ∧ (b = true ↔ Covers w t) := by
  obtain ⟨b, hb, hupper⟩ := @coveredLoop_eq 65 90 w t (by omega) (by omega) (by omega)
  obtain ⟨b', hb', hlower⟩ := @coveredLoop_eq 97 122 w t (by omega) (by omega) (by omega)
  rw [covers_iff ht, isCovered, code_upper_a, code_upper_z, code_lower_a, code_lower_z, hb,
    pure_bind]
  cases b with
  | true =>
    refine ⟨b', by rw [if_pos rfl, hb'], hlower.trans ⟨fun h x hx => ?_, fun h x hx hx' => ?_⟩⟩
    · rcases hx with hx | hx
      · exact hupper.mp rfl x hx.1 hx.2
      · exact h x hx.1 hx.2
    · exact h x (.inr ⟨hx, hx'⟩)
  | false =>
    refine ⟨false, by rw [if_neg Bool.false_ne_true], iff_of_false Bool.false_ne_true fun h => ?_⟩
    exact Bool.false_ne_true (hupper.mpr fun x hx hx' => h x (.inl ⟨hx, hx'⟩))

/-! ### The loops -/

/-- **A window is compared** with the best one so far. -/
theorem record_eq (hb : Best (Covering s t) r k best) (hr : r < s.length) (hk : k ≤ r)
    (hcover : Covering s t k (r + 1)) (hv : Bounds s.length best v.ansLeft v.ansRight)
    (hleft : v.left = k) : ∃ best', Best (Covering s t) r (k + 1) best' ∧
      Bounds s.length best' (record r v).ansLeft (record r v).ansRight ∧
      (record r v).left = k ∧ (record r v).cntS = v.cntS := by
  have htake : Bounds s.length (some (k, r + 1)) v.left r :=
    ⟨hleft, by push_cast; ring⟩
  rw [record]
  cases best with
  | none =>
    obtain ⟨hl, hr'⟩ := hv
    rw [if_pos (by omega)]
    exact ⟨_, hb.first hk hcover, htake, hleft, rfl⟩
  | some p =>
    obtain ⟨hl, hr'⟩ := hv
    have hab := hb.1.1
    by_cases hlt : (r : ℤ) - v.left < v.ansRight - v.ansLeft
    · rw [if_pos hlt]
      exact ⟨_, hb.shorter hk hcover (by omega), htake, hleft, rfl⟩
    · rw [if_neg hlt]
      exact ⟨_, hb.keep hk (by omega), ⟨hl, hr'⟩, hleft, rfl⟩

/-- **The inner loop** goes on up to the frontier. -/
theorem shrinkLoop_eq (hs : ∀ c ∈ s, 0 ≤ c.toInt) (ht : ∀ c ∈ t, Letter c.toInt) (hne : t ≠ [])
    (hr : r < s.length) (hk : k ≤ r + 1) (hgood : ∀ l < k, Covering s t l (r + 1))
    (hb : Best (Covering s t) r k best) (hv : Bounds s.length best v.ansLeft v.ansRight)
    (hleft : v.left = k) (hcnt : v.cntS = counts (between s k (r + 1))) :
    ∃ v' k' best', shrinkLoop s (counts t) r v = pure v' ∧
      Frontier (Covering s t) (r + 1) k' ∧ Best (Covering s t) r k' best' ∧
      Bounds s.length best' v'.ansLeft v'.ansRight ∧ v'.left = k' ∧
      v'.cntS = counts (between s k' (r + 1)) := by
  obtain ⟨d, hd⟩ := Nat.exists_eq_add_of_le hk
  induction d generalizing k v best with
  | zero =>
    obtain ⟨b, hrun, hcover⟩ := isCovered_eq (w := between s k (r + 1)) ht
    obtain rfl : k = r + 1 := hd.symm
    have hfail := not_covering_self hne s (r + 1)
    refine ⟨v, r + 1, best, ?_, ⟨le_rfl, hgood, fun l hl hl' => by omega⟩, hb, hv, hleft, hcnt⟩
    rw [shrinkLoop, hcnt, hrun, pure_bind, if_neg (mt hcover.mp hfail)]
  | succ d ih =>
    obtain ⟨b, hrun, hcover⟩ := isCovered_eq (w := between s k (r + 1)) ht
    rw [shrinkLoop, hcnt, hrun, pure_bind]
    by_cases hc : Covering s t k (r + 1)
    · obtain ⟨best', hb', hv', hleft', hcnt'⟩ := record_eq hb hr (by omega) hc hv hleft
      have hx : s[k]? = some s[k] := List.getElem?_eq_getElem (by omega)
      rw [if_pos (hcover.mpr hc)]
      dsimp only
      rw [hleft', hcnt', hcnt, nth_eq hx, pure_bind, between_cons (by omega) hx,
        bump_counts_cons (hs _ (List.getElem_mem _)), pure_bind]
      refine ih (k := k + 1) (by omega) (fun l hl => ?_) hb' hv' (by push_cast; rfl) rfl (by omega)
      rcases Nat.lt_succ_iff_lt_or_eq.mp hl with hlt' | rfl
      · exact hgood l hlt'
      · exact hc
    · rw [if_neg (mt hcover.mp hc)]
      exact ⟨v, k, best, rfl, frontier_of_stop (extends_covers s t) (by omega) hgood hc, hb, hv,
        hleft, hcnt⟩

/-- **The loop** leaves behind the best of all windows. -/
theorem slideLoop_eq (hs : ∀ c ∈ s, 0 ≤ c.toInt) (ht : ∀ c ∈ t, Letter c.toInt) (hne : t ≠ [])
    (hr : r ≤ s.length) (hf : Frontier (Covering s t) r k) (hb : Best (Covering s t) r k best)
    (hv : Bounds s.length best v.ansLeft v.ansRight) (hleft : v.left = k)
    (hcnt : v.cntS = counts (between s k r)) : ∃ v' k' best',
      slideLoop s (counts t) s.length r v = pure v' ∧ Frontier (Covering s t) s.length k' ∧
        Best (Covering s t) s.length k' best' ∧ Bounds s.length best' v'.ansLeft v'.ansRight := by
  obtain ⟨d, hd⟩ := Nat.exists_eq_add_of_le hr
  induction d generalizing r k v best with
  | zero =>
    obtain rfl : s.length = r := hd
    exact ⟨v, k, best, by rw [slideLoop, if_neg (lt_irrefl _)], hf, hb, hv⟩
  | succ d ih =>
    have hx : s[r]? = some s[r] := List.getElem?_eq_getElem (by omega)
    rw [slideLoop, if_pos (by omega), nth_eq hx, pure_bind, hcnt,
      bump_counts_concat (hs _ (List.getElem_mem _)), pure_bind, ← between_concat hf.le hx]
    obtain ⟨v', k', best', hrun, hf', hb', hv', hleft', hcnt'⟩ :=
      shrinkLoop_eq (v := { v with cntS := counts (between s k (r + 1)) }) hs ht hne
        (show r < s.length by omega) (hf.le.trans (Nat.le_succ r))
        (fun l hl => hf.keeps (extends_covers s t) hl) hb hv hleft rfl
    rw [hrun, pure_bind, ← Nat.cast_succ]
    exact ih (by omega) hf' (hb'.next hf') hv' hleft' hcnt' (by omega)

/-- The part of a string between two positions. -/
theorem substr_eq {a b : ℕ} (hab : a ≤ b) (hb : b ≤ s.length) :
    substr s a ((b : ℤ) - 1 - a + 1) = pure (between s a b) := by
  rw [substr, if_pos (by omega)]
  dsimp only
  rw [if_pos (by omega), show (b : ℤ) - 1 - a + 1 = (b - a : ℕ) by omega,
    Int.toNat_natCast, Int.toNat_natCast, between]

/-- **The empty string** is the answer exactly if no substring covers `t`. -/
theorem Answer.eq_nil_iff (h : Answer s t w) (hne : t ≠ []) :
    w = [] ↔ ∀ sub, sub <:+: s → ¬ Covers sub t := by
  rcases h with ⟨a, b, hl, rfl⟩ | ⟨hnone, rfl⟩
  · refine iff_of_false (fun hnil => ?_) fun h => ?_
    · have hlen := length_between (a := a) hl.le
      rw [hnil, List.length_nil] at hlen
      have hlt := hl.lt
      omega
    · exact h _ (infix_iff_between.mpr ⟨a, b, hl.lt.le, hl.le, rfl⟩) hl.holds
  · refine iff_of_true rfl fun sub hsub hcover => ?_
    obtain ⟨a, b, hab, hb, rfl⟩ := infix_iff_between.mp hsub
    rcases hab.eq_or_lt with rfl | hlt
    · exact not_covering_self hne s a hcover
    · exact Set.eq_empty_iff_forall_notMem.mp hnone (a, b) ⟨hlt, hb, hcover⟩

end MinWindow

end Candcpp
