import Candcpp.Order.Steps
import Candcpp.Order.Windows

/-!
# Making every element one by greatest common divisors

A list of which one of two neighbouring elements may be replaced by their greatest common divisor:
`Candcpp.GcdStep`. How many steps does it take at least until every element is `1`
(`Candcpp.toOnes`)?

If there is a `1`, it takes as many as there are other elements (`Candcpp.isLeast_toOnes_of_mem`): a
step makes one more element `1` at most, and a neighbour of a `1` can be made so. If there is none,
the first one takes as many steps as the shortest window of which the greatest common divisor is `1`
has elements, less one (`Candcpp.isLeast_toOnes_of_window`). The window is folded into its last
element. And there is no faster way: after `t` steps an element is divided by the greatest common
divisor of a window of `t + 1` elements at most. That is not an invariant of its own, as two windows
that are put together are longer than one of them by more than one. But the windows of neighbours
overlap: from the first element of the one at `i` to the last one of the one at `j` there are not
more than `t + 1 + (j - i)` (`Candcpp.Spans`).
-/

namespace Candcpp

variable {α : Type} [CommMonoidWithZero α] [NormalizedGCDMonoid α]

/-- **One of two neighbours** becomes their greatest common divisor. -/
inductive GcdStep : List α → List α → Prop
  | left (p : List α) (x y : α) (q : List α) :
      GcdStep (p ++ x :: y :: q) (p ++ GCDMonoid.gcd x y :: y :: q)
  | right (p : List α) (x y : α) (q : List α) :
      GcdStep (p ++ x :: y :: q) (p ++ x :: GCDMonoid.gcd x y :: q)

/-- In how many steps every element can be made `1`. -/
def toOnes (l : List α) : Set ℕ := {t | ∃ l', Steps GcdStep t l l' ∧ ∀ x ∈ l', x = 1}

/-- The greatest common divisor of the elements from the position `a` on and before `b`. -/
def windowGcd (l : List α) (a b : ℕ) : α := Multiset.gcd (between l a b : Multiset α)

/-- A window of which the greatest common divisor is `1`. -/
def Coprime (l : List α) (a b : ℕ) : Prop := windowGcd l a b = 1

variable {l l' p q w : List α} {x y : α} {a b a' b' i j k m n t : ℕ}

/-! ### The greatest common divisor of a window -/

omit [CommMonoidWithZero α] [NormalizedGCDMonoid α] in
theorem coe_between_append (hak : a ≤ k) (hkb : k ≤ b) :
    (between l a b : Multiset α) = (between l a k : Multiset α) + (between l k b : Multiset α) := by
  rw [between_append hak hkb, Multiset.coe_add]

/-- **A larger window** has the smaller greatest common divisor. -/
theorem windowGcd_dvd (ha : a ≤ a') (hab : a' ≤ b') (hb : b' ≤ b) :
    windowGcd l a b ∣ windowGcd l a' b' := by
  refine Multiset.gcd_mono fun x hx => ?_
  rw [coe_between_append ha (hab.trans hb), coe_between_append hab hb]
  exact Multiset.mem_add.mpr (.inr (Multiset.mem_add.mpr (.inl hx)))

theorem windowGcd_self (l : List α) (a : ℕ) : windowGcd l a a = 0 := by
  rw [windowGcd, between_self]
  exact Multiset.gcd_zero

variable [Subsingleton αˣ]

theorem gcd_singleton_eq (x : α) : Multiset.gcd ({x} : Multiset α) = x := by
  rw [Multiset.gcd_singleton, normalize_apply, Subsingleton.elim (normUnit x) 1, Units.val_one,
    mul_one]

/-- One more element of a window. -/
theorem windowGcd_concat (hab : a ≤ b) (hx : l[b]? = some x) :
    windowGcd l a (b + 1) = GCDMonoid.gcd (windowGcd l a b) x := by
  rw [windowGcd, between_concat hab hx, ← Multiset.coe_add, Multiset.gcd_add,
    Multiset.coe_singleton, gcd_singleton_eq, windowGcd]

theorem windowGcd_one (hx : l[a]? = some x) : windowGcd l a (a + 1) = x := by
  rw [windowGcd, between_concat le_rfl hx, between_self, List.nil_append, Multiset.coe_singleton,
    gcd_singleton_eq]

theorem extends_coprime (l : List α) : Extends (Coprime l) := fun _ _ _ _ hi hij hj hg =>
  isUnit_iff_eq_one.mp (isUnit_of_dvd_one (hg ▸ windowGcd_dvd hi hij.le hj))

/-! ### To the first one -/

/-- **A window is folded** into its last element. -/
theorem fold (hw : Multiset.gcd ((x :: w : List α) : Multiset α) = 1) (p q : List α) :
    ∃ p', Steps GcdStep w.length (p ++ (x :: w ++ q)) (p' ++ 1 :: q) := by
  induction w generalizing p x with
  | nil =>
    rw [Multiset.coe_singleton, gcd_singleton_eq] at hw
    exact ⟨p, hw ▸ .done⟩
  | cons y w ih =>
    rw [← Multiset.cons_coe, ← Multiset.cons_coe, Multiset.gcd_cons, Multiset.gcd_cons, ← gcd_assoc,
      ← Multiset.gcd_cons, Multiset.cons_coe] at hw
    obtain ⟨p', hrest⟩ := ih hw (p ++ [x])
    rw [List.append_assoc, List.singleton_append] at hrest
    exact ⟨p', .next (.right p x y (w ++ q)) hrest⟩

section Update

variable {f : ℕ → ℕ}

/-- One value of a sequence becomes the next one. -/
theorem monotone_update_next (hf : Monotone f) (k : ℕ) :
    Monotone (Function.update f k (f (k + 1))) := by
  refine monotone_nat_of_le_succ fun i => ?_
  have hi := hf (Nat.le_add_right i 1)
  have hk := hf (Nat.le_add_right k 1)
  rw [Function.update_apply, Function.update_apply]
  split_ifs with h1 h2 h2
  · omega
  · rw [h1]
  · rw [h2] at hi
    exact hi.trans hk
  · exact hi

/-- One value of a sequence becomes the previous one. -/
theorem monotone_update_previous (hf : Monotone f) (k : ℕ) :
    Monotone (Function.update f (k + 1) (f k)) := by
  refine monotone_nat_of_le_succ fun i => ?_
  have hi := hf (Nat.le_add_right i 1)
  have hk := hf (Nat.le_add_right k 1)
  rw [Function.update_apply, Function.update_apply]
  split_ifs with h1 h2 h2
  · omega
  · rw [h1] at hi ⊢
    exact hk.trans hi
  · rw [Nat.succ_injective h2]
  · exact hi

end Update

/-- **Windows after `t` steps**: the one of `i` goes from `a i` to before `b i`, its greatest common
divisor divides the element at `i`, and from the first element of the window of `i` to the last one
of the window of `j` there are not more than `t + 1 + (j - i)`. -/
structure Spans (orig l : List α) (t : ℕ) (a b : ℕ → ℕ) : Prop where
  length : l.length = orig.length
  starts : Monotone a
  ends : Monotone b
  lt : ∀ i, a i < b i
  inside : ∀ i < orig.length, b i ≤ orig.length
  dvd : ∀ i x, l[i]? = some x → windowGcd orig (a i) (b i) ∣ x
  wide : ∀ i j, i ≤ j → b j ≤ a i + (t + 1) + (j - i)

/-- At first the windows are the elements. -/
theorem Spans.start (l : List α) : Spans l l 0 id Nat.succ where
  length := rfl
  starts := monotone_id
  ends := Order.succ_mono
  lt := Nat.lt_succ_self
  inside := fun _ hi => hi
  dvd := fun i x hx => (windowGcd_one hx).dvd
  wide := fun i j hij => by
    rw [id, Nat.succ_eq_add_one]
    omega

omit [Subsingleton αˣ] in
/-- **The first of two neighbours** gets the window of both. -/
theorem Spans.left {orig l : List α} {a b : ℕ → ℕ} (h : Spans orig l t a b) (hx : l[k]? = some x)
    (hy : l[k + 1]? = some y) :
    Spans orig (l.set k (GCDMonoid.gcd x y)) (t + 1) a (Function.update b k (b (k + 1))) where
  length := List.length_set.trans h.length
  starts := h.starts
  ends := monotone_update_next h.ends k
  lt := fun i => by
    have hk := h.ends (Nat.le_succ k)
    have hlt := h.lt i
    rw [Function.update_apply]
    split_ifs with h1
    · rw [h1] at hlt ⊢
      exact hlt.trans_le hk
    · exact hlt
  inside := fun i hi => by
    rw [Function.update_apply]
    split_ifs with h1
    · exact h.inside _ (h.length ▸ (List.getElem?_eq_some_iff.mp hy).1)
    · exact h.inside i hi
  dvd := fun i z hz => by
    rw [Function.update_apply]
    rcases eq_or_ne i k with rfl | hne
    · rw [List.getElem?_set_self (List.getElem?_eq_some_iff.mp hx).1] at hz
      rw [if_pos rfl, ← Option.some.inj hz]
      refine dvd_gcd ((windowGcd_dvd le_rfl (h.lt i).le ?_).trans (h.dvd i x hx))
        ((windowGcd_dvd (h.starts (Nat.le_succ i)) (h.lt _).le le_rfl).trans (h.dvd _ y hy))
      exact h.ends (Nat.le_succ i)
    · rw [List.getElem?_set_ne hne.symm] at hz
      rw [if_neg hne]
      exact h.dvd i z hz
  wide := fun i j hij => by
    rw [Function.update_apply]
    split_ifs with h1
    · have hwide := h.wide i (k + 1) (by omega)
      omega
    · have hwide := h.wide i j hij
      omega

omit [Subsingleton αˣ] in
/-- **The second of two neighbours** gets the window of both. -/
theorem Spans.right {orig l : List α} {a b : ℕ → ℕ} (h : Spans orig l t a b) (hx : l[k]? = some x)
    (hy : l[k + 1]? = some y) :
    Spans orig (l.set (k + 1) (GCDMonoid.gcd x y)) (t + 1) (Function.update a (k + 1) (a k)) b where
  length := List.length_set.trans h.length
  starts := monotone_update_previous h.starts k
  ends := h.ends
  lt := fun i => by
    have hk := h.starts (Nat.le_succ k)
    have hlt := h.lt i
    rw [Function.update_apply]
    split_ifs with h1
    · rw [h1] at hlt ⊢
      exact hk.trans_lt hlt
    · exact hlt
  inside := h.inside
  dvd := fun i z hz => by
    rw [Function.update_apply]
    rcases eq_or_ne i (k + 1) with rfl | hne
    · rw [List.getElem?_set_self (List.getElem?_eq_some_iff.mp hy).1] at hz
      rw [if_pos rfl, ← Option.some.inj hz]
      refine dvd_gcd ((windowGcd_dvd le_rfl (h.lt k).le ?_).trans (h.dvd k x hx))
        ((windowGcd_dvd (h.starts (Nat.le_succ k)) (h.lt _).le le_rfl).trans (h.dvd _ y hy))
      exact h.ends (Nat.le_succ k)
    · rw [List.getElem?_set_ne hne.symm] at hz
      rw [if_neg hne]
      exact h.dvd i z hz
  wide := fun i j hij => by
    rw [Function.update_apply]
    split_ifs with h1
    · have hwide := h.wide k j (by omega)
      omega
    · have hwide := h.wide i j hij
      omega

omit [Subsingleton αˣ] in
/-- **A step changes one element.** -/
theorem GcdStep.exists_set (h : GcdStep l l') : ∃ k x y, l[k]? = some x ∧ l[k + 1]? = some y ∧
    (l' = l.set k (GCDMonoid.gcd x y) ∨ l' = l.set (k + 1) (GCDMonoid.gcd x y)) := by
  have hget : ∀ (p : List α) (x y : α) (q : List α), (p ++ x :: y :: q)[p.length]? = some x ∧
      (p ++ x :: y :: q)[p.length + 1]? = some y := fun p x y q => by
    constructor
    · rw [List.getElem?_append_right le_rfl, Nat.sub_self, List.getElem?_cons_zero]
    · rw [List.getElem?_append_right (Nat.le_add_right _ 1), Nat.add_sub_cancel_left,
        List.getElem?_cons_succ, List.getElem?_cons_zero]
  cases h with
  | left p x y q =>
    refine ⟨p.length, x, y, (hget p x y q).1, (hget p x y q).2, .inl ?_⟩
    rw [List.set_append_right _ _ le_rfl, Nat.sub_self, List.set_cons_zero]
  | right p x y q =>
    refine ⟨p.length, x, y, (hget p x y q).1, (hget p x y q).2, .inr ?_⟩
    rw [List.set_append_right _ _ (Nat.le_add_right _ 1), Nat.add_sub_cancel_left,
      List.set_cons_succ, List.set_cons_zero]

/-- **There are windows** after any steps. -/
theorem exists_spans (h : Steps GcdStep t l l') : ∃ a b, Spans l l' t a b := by
  induction t generalizing l' with
  | zero =>
    obtain rfl := Steps.zero_iff.mp h
    exact ⟨_, _, .start l'⟩
  | succ t ih =>
    obtain ⟨m, hm, hlast⟩ := Steps.succ_iff.mp h
    obtain ⟨a, b, hab⟩ := ih hm
    obtain ⟨k, x, y, hx, hy, rfl | rfl⟩ := hlast.exists_set
    · exact ⟨_, _, hab.left hx hy⟩
    · exact ⟨_, _, hab.right hx hy⟩

/-- **The first `1`** takes as many steps as a window has elements, less one. -/
theorem exists_coprime (h : Steps GcdStep t l l') (hone : 1 ∈ l') :
    ∃ i j, i < j ∧ j ≤ l.length ∧ Coprime l i j ∧ j ≤ i + (t + 1) := by
  obtain ⟨a, b, hab⟩ := exists_spans h
  obtain ⟨k, hk⟩ := List.mem_iff_getElem?.mp hone
  have hlt := (List.getElem?_eq_some_iff.mp hk).1
  have hwide := hab.wide k k le_rfl
  rw [Nat.sub_self, Nat.add_zero] at hwide
  exact ⟨a k, b k, hab.lt k, hab.inside k (hab.length ▸ hlt),
    isUnit_iff_eq_one.mp (isUnit_of_dvd_one (hab.dvd k 1 hk)), hwide⟩

/-! ### From a one to all others -/

omit [Subsingleton αˣ] in
theorem GcdStep.length (h : GcdStep l l') : l'.length = l.length := by
  cases h <;> simp only [List.length_append, List.length_cons]

omit [Subsingleton αˣ] in
theorem GcdStep.reverse (h : GcdStep l l') : GcdStep l.reverse l'.reverse := by
  cases h with
  | left p x y q =>
    simpa [gcd_comm] using GcdStep.right q.reverse y x p.reverse
  | right p x y q =>
    simpa [gcd_comm] using GcdStep.left q.reverse y x p.reverse

variable [DecidableEq α]

omit [Subsingleton αˣ] in
/-- The elements behind a `1` become `1`. -/
theorem spread_right (p q : List α) : Steps GcdStep (q.length - q.count 1) (p ++ 1 :: q)
    (p ++ 1 :: List.replicate q.length 1) := by
  induction q generalizing p with
  | nil => exact .done
  | cons y q ih =>
    have hrest := ih (p ++ [1])
    have hle := List.count_le_length (a := (1 : α)) (l := q)
    rw [List.append_assoc, List.append_assoc, List.singleton_append, List.singleton_append] at hrest
    rw [List.length_cons, List.replicate_succ]
    rcases eq_or_ne y 1 with rfl | hne
    · rwa [List.count_cons_self, Nat.add_sub_add_right]
    · have hstep := GcdStep.right p 1 y q
      rw [gcd_one_left] at hstep
      rw [List.count_cons_of_ne hne, Nat.succ_sub hle]
      exact .next hstep hrest

omit [Subsingleton αˣ] in
/-- **Every element becomes `1`** where one is. -/
theorem spread (h : 1 ∈ l) :
    Steps GcdStep (l.length - l.count 1) l (List.replicate l.length 1) := by
  obtain ⟨p, q, rfl⟩ := List.append_of_mem h
  have hright := spread_right p q
  have hleft := (spread_right (List.replicate q.length 1) p.reverse).map fun _ _ hs => hs.reverse
  have hp := List.count_le_length (a := (1 : α)) (l := p)
  have hq := List.count_le_length (a := (1 : α)) (l := q)
  simp only [List.length_reverse, List.count_reverse, List.reverse_append, List.reverse_cons,
    List.reverse_reverse, List.reverse_replicate, List.append_assoc, List.singleton_append]
    at hleft
  have hall := hright.trans hleft
  rw [← List.replicate_succ, List.replicate_append_replicate] at hall
  rw [List.length_append, List.length_cons, List.count_append, List.count_cons_self]
  rwa [show p.length + (q.length + 1) - (p.count 1 + (q.count 1 + 1)) =
    q.length - q.count 1 + (p.length - p.count 1) by omega]

omit [Subsingleton αˣ] in
/-- A step makes one more element `1` at most. -/
theorem GcdStep.count_le (h : GcdStep l l') : l'.count 1 ≤ l.count 1 + 1 := by
  cases h with
  | left p x y q =>
    simp only [List.count_append, List.count_cons]
    split_ifs <;> omega
  | right p x y q =>
    simp only [List.count_append, List.count_cons]
    split_ifs <;> omega

omit [Subsingleton αˣ] [DecidableEq α] in
theorem length_of_steps (h : Steps GcdStep t l l') : l'.length = l.length :=
  h.preserves (P := fun m => m.length = l.length) (fun _ _ hs hlen => hs.length.trans hlen) rfl

omit [NormalizedGCDMonoid α] [Subsingleton αˣ] in
theorem count_of_ones (h : ∀ x ∈ l, x = 1) : l.count 1 = l.length :=
  List.count_eq_length.mpr fun x hx => (h x hx).symm

omit [Subsingleton αˣ] in
/-- **As many steps as there are other elements**, where there is a `1`. -/
theorem isLeast_toOnes_of_mem (h : 1 ∈ l) : IsLeast (toOnes l) (l.length - l.count 1) := by
  refine ⟨⟨_, spread h, fun x hx => List.eq_of_mem_replicate hx⟩, ?_⟩
  rintro t ⟨l', hsteps, hones⟩
  have hlen := length_of_steps hsteps
  have hcount : (l'.count 1 : ℤ) ≤ l.count 1 + t := by
    have hadd := hsteps.le_add (f := fun m => -(m.count 1 : ℤ)) fun a b hs => by
      have hle := hs.count_le
      omega
    omega
  rw [count_of_ones hones, hlen] at hcount
  omega

/-- While there is no `1` at first, and no coprime window of less than `m` elements, the ones that
there are after `t` steps have taken the steps to the first one and one step each. -/
theorem count_of_steps (hm : ∀ i j, i < j → j ≤ l.length → Coprime l i j → i + m ≤ j)
    (hnone : 1 ∉ l) (h : Steps GcdStep t l l') : l'.count 1 = 0 ∨ m + l'.count 1 ≤ t + 2 := by
  induction t generalizing l' with
  | zero =>
    obtain rfl := Steps.zero_iff.mp h
    exact .inl (List.count_eq_zero.mpr hnone)
  | succ t ih =>
    obtain ⟨l₁, h₁, hlast⟩ := Steps.succ_iff.mp h
    have hle := hlast.count_le
    rcases ih h₁ with hzero | hone
    · by_cases hmem : 1 ∈ l'
      · obtain ⟨i, j, hij, hj, hg, hwide⟩ := exists_coprime h hmem
        have hshort := hm i j hij hj hg
        exact .inr (by omega)
      · exact .inl (List.count_eq_zero.mpr hmem)
    · exact .inr (by omega)

/-- **The shortest coprime window** is made a `1` first, where there is none. -/
theorem isLeast_toOnes_of_window (hnone : 1 ∉ l)
    (hm : IsLeast (goodLengths (Coprime l) l.length) m) :
    IsLeast (toOnes l) (m - 1 + (l.length - 1)) := by
  have hlower : ∀ t ∈ toOnes l, m - 1 + (l.length - 1) ≤ t := by
    rintro t ⟨l', hsteps, hones⟩
    have hlen := length_of_steps hsteps
    have hcount := count_of_steps (m := m) (fun i j hij hj hg => by
      have hle := hm.2 (mem_goodLengths hij hj hg)
      omega) hnone hsteps
    rw [count_of_ones hones, hlen] at hcount
    obtain ⟨hpos, i, hi, -⟩ := hm.1
    omega
  obtain ⟨hpos, i, hi, hg⟩ := hm.1
  -- The window is folded, and the `1` is spread.
  obtain ⟨x, hx⟩ : ∃ x, l[i]? = some x := ⟨_, List.getElem?_eq_getElem (by omega)⟩
  have hwindow : between l i (i + m) = x :: between l (i + 1) (i + m) :=
    between_cons (by omega) hx
  have hsplit : between l 0 i ++ (x :: between l (i + 1) (i + m) ++ between l (i + m) l.length) =
      l := by
    rw [← hwindow, ← between_append (by omega) hi, ← between_append (Nat.zero_le i) (by omega),
      between_all]
  rw [Coprime, windowGcd, hwindow] at hg
  obtain ⟨p', hfold⟩ := fold hg (between l 0 i) (between l (i + m) l.length)
  rw [hsplit, length_between hi, show i + m - (i + 1) = m - 1 by omega] at hfold
  have hmem : 1 ∈ p' ++ 1 :: between l (i + m) l.length :=
    List.mem_append_right p' List.mem_cons_self
  have hcount := List.count_pos_iff.mpr hmem
  have hlen := length_of_steps hfold
  have hall := hfold.trans (spread hmem)
  rw [hlen] at hall
  have hreach : m - 1 + (l.length - (p' ++ 1 :: between l (i + m) l.length).count 1) ∈ toOnes l :=
    ⟨_, hall, fun x hx => List.eq_of_mem_replicate hx⟩
  have heq := hlower _ hreach
  refine ⟨?_, hlower⟩
  rwa [show m - 1 + (l.length - 1) =
    m - 1 + (l.length - (p' ++ 1 :: between l (i + m) l.length).count 1) by omega]

omit [DecidableEq α] in
/-- **No steps lead to ones** where no window is coprime. -/
theorem toOnes_eq_empty (hne : l ≠ []) (hnone : goodLengths (Coprime l) l.length = ∅) :
    toOnes l = ∅ := by
  refine Set.eq_empty_of_forall_notMem ?_
  rintro t ⟨l', hsteps, hones⟩
  have hlen := length_of_steps hsteps
  obtain ⟨x, hx⟩ := List.exists_mem_of_length_pos (hlen ▸ List.length_pos_of_ne_nil hne)
  obtain ⟨i, j, hij, hj, hg, -⟩ := exists_coprime hsteps (hones x hx ▸ hx)
  have hmem := mem_goodLengths hij hj hg
  rw [hnone] at hmem
  exact absurd hmem (Set.notMem_empty _)

end Candcpp
