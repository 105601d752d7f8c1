import Candcpp.Cpp.Buffers

/-!
# Owners of buffers

Objects that hold a pointer to a buffer each, and are alone in holding it. `Candcpp.Cpp.Owners`
says which object holds which pointer, what stands in the buffers, that no buffer has two owners,
and that no buffer is without one.

Each thing that can happen to a buffer has one rule: an object gets an empty pointer
(`Owners.born`), or a new buffer (`Owners.alloc`), writes to its buffer (`Owners.write`), deletes
it (`Owners.delete`), passes it on to another object (`Owners.move`), changes it for a new one
(`Owners.replace`), or goes (`Owners.gone`). In each, what the other objects hold is left as it
was. A program is proved correct by following it with these rules.
-/

namespace Candcpp

namespace Cpp

variable {α ν δ ι : Type}

/-- The contents of the buffer that a pointer points to, which are empty for a null pointer. -/
def Holds (m : Mem (Arr α)) : Ptr → List α → Prop
  | none, l => l = []
  | some a, l => ∃ arr, m a = some arr ∧ arr.toList = l

/-- **Owners**: the objects `i` that are alive hold the pointers `ptr i`, to the contents
`val i`; a buffer has one owner. -/
structure Owners (m : Mem (Arr α)) (ptr : ι → Option Ptr) (val : ι → Option (List α)) : Prop where
  holds : ∀ i, Option.Rel (Holds m) (ptr i) (val i)
  unique : ∀ i j a, ptr i = some (some a) → ptr j = some (some a) → i = j
  owned : ∀ a arr, m a = some arr → ∃ i, ptr i = some (some a)

/-- What a pointer points to depends on that buffer only. -/
theorem Holds.congr {m m' : Mem (Arr α)} {p : Ptr} {l : List α} (h : Holds m p l)
    (hm : ∀ a, p = some a → m' a = m a) : Holds m' p l := by
  match p, h with
  | none, h => exact h
  | some a, ⟨arr, ha, hl⟩ => exact ⟨arr, (hm a rfl).trans ha, hl⟩

theorem holds_congr {m m' : Mem (Arr α)} {op : Option Ptr} {ol : Option (List α)}
    (h : Option.Rel (Holds m) op ol) (hm : ∀ a, op = some (some a) → m' a = m a) :
    Option.Rel (Holds m') op ol := by
  cases h with
  | none => exact .none
  | some h => exact .some (h.congr fun a ha => hm a (congrArg some ha))

/-- A pointer to a buffer does not point to a free address. -/
theorem Holds.ne_of_free {m : Mem (Arr α)} {p : Ptr} {l : List α} {b : Addr} (h : Holds m p l)
    (hb : m b = none) : p ≠ some b := by
  rintro rfl
  obtain ⟨arr, harr, -⟩ := h
  rw [hb] at harr
  cases harr

/-- **Copying** what a pointer points to, to a buffer from the index `off` on. -/
theorem copyTo_holds {m : Mem (Arr α)} {p : Ptr} {l : List α} {b : Addr} {dst : Arr α}
    (off : ℕ) (h : Holds m p l) (hd : m b = some dst) (hp : p ≠ some b)
    (hoff : off + l.length ≤ dst.size) (hint : ((off + l.length : ℕ) : ℤ) ≤ intMax) :
    ∃ arr, m.copyTo p (some b) off l.length = pure (m.set b arr) ∧ arr.size = dst.size ∧
      (∀ i, i < off → arr.data i = dst.data i) ∧
      (List.range l.length).map (fun i => arr.data (off + i)) = l := by
  match p, h with
  | none, h =>
    obtain rfl := h
    exact ⟨dst, congrArg pure (Mem.set_eq_self hd).symm, rfl,
      fun _ _ => rfl, rfl⟩
  | some a, ⟨src, ha, hl⟩ =>
    subst hl
    rw [Arr.length_toList] at hoff hint ⊢
    refine ⟨_, Mem.copyTo_eq ha hd (fun hab => hp (congrArg some hab)) le_rfl hoff hint, rfl,
      fun i hi => if_neg (by omega), List.map_congr_left fun i hi => ?_⟩
    rw [List.mem_range] at hi
    dsimp only
    rw [if_pos (by omega), Nat.add_sub_cancel_left]

/-- **A copy in a new buffer** of the same length. -/
theorem copyTo_new {m : Mem (Arr α)} {p : Ptr} {l : List α} {b : Block α} (h : Holds m p l)
    (hb : m b.addr = none) (hint : (l.length : ℤ) ≤ intMax) :
    ∃ arr, (m.alloc b l.length).copyTo p (some b.addr) 0 l.length = pure (m.set b.addr arr) ∧
      arr.toList = l := by
  have hp := h.ne_of_free hb
  have hnew : Holds (m.alloc b l.length) p l := h.congr fun a ha =>
    Mem.set_of_ne m _ fun hab => hp (ha.trans (congrArg some hab))
  obtain ⟨arr, hcopy, hsize, -, hl⟩ := copyTo_holds 0 hnew (Mem.set_self m b.addr _) hp
    (Nat.zero_add _).le (by rwa [Nat.zero_add])
  refine ⟨arr, hcopy.trans (congrArg pure (Mem.set_set ..)), ?_⟩
  rw [Arr.toList, hsize]
  simpa only [Nat.zero_add] using hl

namespace Owners

variable {m m' : Mem (Arr α)} {ptr : ι → Option Ptr} {val : ι → Option (List α)} {i j : ι}
  {p : Ptr} {l : List α} {a b : Addr} {arr : Arr α}

theorem empty : Owners (ι := ι) (fun _ => none : Mem (Arr α)) (fun _ => none) (fun _ => none) where
  holds := fun _ => Option.Rel.none
  unique := fun _ _ _ h => nomatch h
  owned := fun _ _ h => nomatch h

/-- An object that is alive holds a pointer, and the pointer has contents. -/
theorem exists_ptr (h : Owners m ptr val) (hl : val i = some l) :
    ∃ p, ptr i = some p ∧ Holds m p l := by
  have hi := h.holds i
  rw [hl] at hi
  cases hp : ptr i with
  | none => rw [hp] at hi; cases hi
  | some p =>
    rw [hp] at hi
    cases hi with
    | some hi => exact ⟨p, rfl, hi⟩

theorem exists_val (h : Owners m ptr val) (hp : ptr i = some p) :
    ∃ l, val i = some l ∧ Holds m p l := by
  have hi := h.holds i
  rw [hp] at hi
  cases hl : val i with
  | none => rw [hl] at hi; cases hi
  | some l =>
    rw [hl] at hi
    cases hi with
    | some hi => exact ⟨l, rfl, hi⟩

theorem exists_arr (h : Owners m ptr val) (hp : ptr i = some (some a)) :
    ∃ arr, m a = some arr ∧ val i = some arr.toList := by
  obtain ⟨l, hl, arr, harr, rfl⟩ := h.exists_val hp
  exact ⟨arr, harr, hl⟩

theorem val_eq_none (h : Owners m ptr val) (hp : ptr i = none) : val i = none := by
  by_contra hl
  obtain ⟨l, hl⟩ := Option.ne_none_iff_exists'.mp hl
  obtain ⟨p, hp', -⟩ := h.exists_ptr hl
  rw [hp] at hp'
  cases hp'

/-- An object with no buffer. -/
def Bare (ptr : ι → Option Ptr) (i : ι) : Prop := ∀ a, ptr i ≠ some (some a)

theorem bare_of_none (h : ptr i = none) : Bare ptr i := fun _ ha => nomatch h.symm.trans ha

/-- The buffers of an object with no buffer are those of the others. -/
theorem owned_of_bare (h : Owners m ptr val) (hi : Bare ptr i) (hb : m b = some arr) :
    ∃ k, k ≠ i ∧ ptr k = some (some b) := by
  obtain ⟨k, hk⟩ := h.owned b arr hb
  refine ⟨k, ?_, hk⟩
  rintro rfl
  exact hi b hk

/-- An address that is free is no buffer of an object. -/
theorem ne_of_free (h : Owners m ptr val) (ha : m a = none) (hp : ptr i = some (some b)) :
    b ≠ a := by
  rintro rfl
  obtain ⟨arr, harr, -⟩ := h.exists_arr hp
  rw [ha] at harr
  cases harr

section Update

variable [DecidableEq ι]

theorem bare_update (ptr : ι → Option Ptr) (i : ι) : Bare (Function.update ptr i (some none)) i :=
  fun a ha => by rw [Function.update_self] at ha; cases ha

/-- **What happens to one object**: it holds another pointer, the buffers of the others are left
alone, and each buffer is still owned. -/
theorem update (h : Owners m ptr val) {op : Option Ptr} {ol : Option (List α)}
    (hframe : ∀ k, k ≠ i → ∀ b, ptr k = some (some b) → m' b = m b)
    (hnew : Option.Rel (Holds m') op ol)
    (hunique : ∀ k, k ≠ i → ∀ b, op = some (some b) → ptr k ≠ some (some b))
    (howned : ∀ b arr, m' b = some arr → op = some (some b) ∨ ∃ k, k ≠ i ∧ ptr k = some (some b)) :
    Owners m' (Function.update ptr i op) (Function.update val i ol) where
  holds := by
    intro k
    by_cases hk : k = i
    · subst hk
      rwa [Function.update_self, Function.update_self]
    · rw [Function.update_of_ne hk, Function.update_of_ne hk]
      exact holds_congr (h.holds k) (hframe k hk)
  unique := by
    intro k k' b hk hk'
    -- the new pointer of `i` is that of nobody else
    by_cases hki : k = i <;> by_cases hki' : k' = i
    · rw [hki, hki']
    · subst hki
      rw [Function.update_self] at hk
      rw [Function.update_of_ne hki'] at hk'
      exact absurd hk' (hunique k' hki' b hk)
    · subst hki'
      rw [Function.update_self] at hk'
      rw [Function.update_of_ne hki] at hk
      exact absurd hk (hunique k hki b hk')
    · rw [Function.update_of_ne hki] at hk
      rw [Function.update_of_ne hki'] at hk'
      exact h.unique k k' b hk hk'
  owned := by
    intro b arr hb
    rcases howned b arr hb with hb | ⟨k, hki, hk⟩
    · exact ⟨i, by rw [Function.update_self, hb]⟩
    · exact ⟨k, by rw [Function.update_of_ne hki, hk]⟩

/-- An object gets a null pointer. -/
theorem born (h : Owners m ptr val) (hi : Bare ptr i) :
    Owners m (Function.update ptr i (some none)) (Function.update val i (some [])) :=
  h.update (fun _ _ _ _ => rfl) (.some rfl) (fun _ _ _ hb => nomatch hb)
    fun _ _ hb => .inr (h.owned_of_bare hi hb)

/-- An object with no buffer goes. -/
theorem gone (h : Owners m ptr val) (hi : Bare ptr i) :
    Owners m (Function.update ptr i none) (Function.update val i none) :=
  h.update (fun _ _ _ _ => rfl) Option.Rel.none (fun _ _ _ hb => nomatch hb)
    fun _ _ hb => .inr (h.owned_of_bare hi hb)

/-- An object with no buffer gets one. -/
theorem alloc (h : Owners m ptr val) (hi : Bare ptr i) (ha : m a = none) (arr : Arr α) :
    Owners (m.set a arr) (Function.update ptr i (some (some a)))
      (Function.update val i (some arr.toList)) := by
  refine h.update ?_ (.some ⟨arr, Mem.set_self m a arr, rfl⟩) ?_ ?_
  · intro k _ b hb
    exact Mem.set_of_ne m arr (h.ne_of_free ha hb)
  · intro k _ b hb hk
    exact h.ne_of_free ha hk (Option.some.inj (Option.some.inj hb)).symm
  · intro b arr' hb
    by_cases hba : b = a
    · exact .inl (by rw [hba])
    · rw [Mem.set_of_ne m arr hba] at hb
      exact .inr (h.owned_of_bare hi hb)

/-- An object writes to its buffer. -/
theorem write (h : Owners m ptr val) (hp : ptr i = some (some a)) (arr : Arr α) :
    Owners (m.set a arr) ptr (Function.update val i (some arr.toList)) := by
  have hother : ∀ k, k ≠ i → ∀ b, ptr k = some (some b) → b ≠ a := by
    rintro k hk b hb rfl
    exact hk (h.unique k i b hb hp)
  have hset : Owners (m.set a arr) (Function.update ptr i (some (some a)))
      (Function.update val i (some arr.toList)) := h.update
    (fun k hk b hb => Mem.set_of_ne m arr (hother k hk b hb))
    (.some ⟨arr, Mem.set_self m a arr, rfl⟩)
    (fun k hk b hb hkb => hother k hk b hkb (Option.some.inj (Option.some.inj hb)).symm)
    (by
      intro b arr' hb
      by_cases hba : b = a
      · exact .inl (by rw [hba])
      · rw [Mem.set_of_ne m arr hba] at hb
        obtain ⟨k, hk⟩ := h.owned b arr' hb
        refine .inr ⟨k, ?_, hk⟩
        rintro rfl
        exact hba (Option.some.inj (Option.some.inj (hk.symm.trans hp))))
  rwa [Function.update_eq_self_iff.mpr hp.symm] at hset

/-- An object overwrites its buffer. -/
theorem overwrite (h : Owners m ptr val) (hp : ptr i = some (some a)) (hl : val i = some l)
    (hw : m.Overwrites a m') :
    ∃ l', l'.length = l.length ∧ Owners m' ptr (Function.update val i (some l')) := by
  obtain ⟨arr, arr', harr, rfl, hsize⟩ := hw
  obtain ⟨arr₁, harr₁, hl₁⟩ := h.exists_arr hp
  obtain rfl := Option.some.inj (harr.symm.trans harr₁)
  obtain rfl := Option.some.inj (hl.symm.trans hl₁)
  exact ⟨arr'.toList, by rw [Arr.length_toList, Arr.length_toList, hsize], h.write hp arr'⟩

/-- An object deletes its buffer, if it has one. -/
theorem delete (h : Owners m ptr val) (hp : ptr i = some p) :
    ∃ m', m.delete p = pure m' ∧
      Owners m' (Function.update ptr i (some none)) (Function.update val i (some [])) := by
  match p, hp with
  | none, hp =>
    exact ⟨m, rfl, h.born fun a ha => nomatch hp.symm.trans ha⟩
  | some a, hp =>
    obtain ⟨arr, harr, -⟩ := h.exists_arr hp
    refine ⟨m.clear a, Mem.delete_some harr,
      h.update ?_ (.some rfl) (fun _ _ _ hb => nomatch hb) ?_⟩
    · intro k hk b hb
      refine Mem.clear_of_ne m ?_
      rintro rfl
      exact hk (h.unique k i b hb hp)
    · intro b arr' hb
      have hba : b ≠ a := by
        rintro rfl
        rw [Mem.clear_self] at hb
        cases hb
      rw [Mem.clear_of_ne m hba] at hb
      obtain ⟨k, hk⟩ := h.owned b arr' hb
      refine .inr ⟨k, ?_, hk⟩
      rintro rfl
      exact hba (Option.some.inj (Option.some.inj (hk.symm.trans hp)))

/-- An object deletes its buffer, if it has one, and goes. -/
theorem release (h : Owners m ptr val) (hp : ptr i = some p) :
    ∃ m', m.delete p = pure m' ∧
      Owners m' (Function.update ptr i none) (Function.update val i none) := by
  obtain ⟨m', hm', hown⟩ := h.delete hp
  have hgone := hown.gone (bare_update ptr i)
  rw [Function.update_idem, Function.update_idem] at hgone
  exact ⟨m', hm', hgone⟩

/-- An object changes its buffer for a new one, and deletes the old one. -/
theorem replace (h : Owners m ptr val) (hp : ptr i = some (some a)) (hb : m b = none)
    (arr : Arr α) :
    ∃ m', (m.set b arr).delete (some a) = pure m' ∧
      Owners m' (Function.update ptr i (some (some b)))
        (Function.update val i (some arr.toList)) := by
  obtain ⟨old, hold, -⟩ := h.exists_arr hp
  have hab : a ≠ b := h.ne_of_free hb hp
  refine ⟨(m.set b arr).clear a, Mem.delete_some ((Mem.set_of_ne m arr hab).trans hold), ?_⟩
  obtain ⟨m', hm', hfree⟩ := h.delete hp
  obtain rfl := Exec.pure_unique hm' (Mem.delete_some hold)
  have hnew := hfree.alloc (bare_update ptr i) ((Mem.clear_of_ne m hab.symm).trans hb) arr
  rw [Function.update_idem, Function.update_idem] at hnew
  rwa [show (m.set b arr).clear a = (m.clear a).set b arr from
    Function.update_comm hab.symm _ _ m]

/-- An object with no buffer takes over what another holds, which is left with a null pointer. -/
theorem move (h : Owners m ptr val) (hij : i ≠ j) (hi : Bare ptr i) (hp : ptr j = some p)
    (hl : val j = some l) :
    Owners m (Function.update (Function.update ptr i (some p)) j (some none))
      (Function.update (Function.update val i (some l)) j (some [])) := by
  obtain ⟨q, hq, hholds⟩ := h.exists_ptr hl
  obtain rfl : p = q := Option.some.inj (hp.symm.trans hq)
  -- who holds a buffer now held it before, except that `i` has taken the place of `j`
  have hbefore : ∀ k b, Function.update (Function.update ptr i (some p)) j (some none) k =
      some (some b) → k ≠ j ∧ ptr (if k = i then j else k) = some (some b) := by
    intro k b hk
    have hkj : k ≠ j := by
      rintro rfl
      rw [Function.update_self] at hk
      cases hk
    rw [Function.update_of_ne hkj] at hk
    refine ⟨hkj, ?_⟩
    by_cases hki : k = i
    · subst hki
      rw [Function.update_self] at hk
      rw [if_pos rfl, hp, hk]
    · rwa [if_neg hki, ← Function.update_of_ne hki (some p) ptr]
  refine ⟨fun k => ?_, fun k k' b hk hk' => ?_, fun b arr hb => ?_⟩
  · by_cases hkj : k = j
    · subst hkj
      rw [Function.update_self, Function.update_self]
      exact .some rfl
    rw [Function.update_of_ne hkj, Function.update_of_ne hkj]
    by_cases hki : k = i
    · subst hki
      rw [Function.update_self, Function.update_self]
      exact .some hholds
    · rw [Function.update_of_ne hki, Function.update_of_ne hki]
      exact h.holds k
  · obtain ⟨hkj, hk⟩ := hbefore k b hk
    obtain ⟨hkj', hk'⟩ := hbefore k' b hk'
    have heq := h.unique _ _ b hk hk'
    split_ifs at heq with hki hki' hki'
    · rw [hki, hki']
    · exact absurd heq.symm hkj'
    · exact absurd heq hkj
    · exact heq
  · obtain ⟨k, hk⟩ := h.owned b arr hb
    by_cases hkj : k = j
    · subst hkj
      exact ⟨i, by rw [Function.update_of_ne hij, Function.update_self, ← hp, hk]⟩
    · have hki : k ≠ i := by
        rintro rfl
        exact hi b hk
      exact ⟨k, by rw [Function.update_of_ne hkj, Function.update_of_ne hki, hk]⟩

end Update

end Owners

end Cpp

end Candcpp
