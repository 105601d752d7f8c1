import Candcpp.Cpp.Exec

/-!
# Singly linked lists

The chains of nodes in a `Candcpp.Cpp.Mem`, for any class of nodes with a value and a `next`
pointer (`Candcpp.Cpp.SLink`).

`Candcpp.Cpp.Chain m p l q` says that the addresses of `l` are met, with their values, from the
pointer `p` on along `next`, and that the last node points on to `q`. A chain that ends at the
null pointer has no repetitions (`Candcpp.Cpp.Chain.nodup`), so that nothing needs to be said
about them. A node is inserted behind another one, and removed behind one, by redirecting one
pointer (`Candcpp.Cpp.Chain.insertAfter`, `Candcpp.Cpp.Chain.removeAfter`).
-/

namespace Candcpp

namespace Cpp

/-- A class of nodes with a value and a pointer. -/
class SLink (ν : Type) (τ : outParam Type) where
  /-- The value of a node. -/
  val : ν → τ
  /-- The `next` field. -/
  next : ν → Ptr
  /-- The write of the `next` field. -/
  setNext : Ptr → ν → ν
  val_setNext : ∀ p n, val (setNext p n) = val n
  next_setNext : ∀ p n, next (setNext p n) = p

attribute [simp] SLink.val_setNext SLink.next_setNext

open SLink

variable {ν τ : Type} [SLink ν τ]

/-! ### Chains -/

/-- **A chain**: the nodes `l` with their values, entered through `p`, the last one pointing on
to `q`. -/
def Chain (m : Mem ν) : Ptr → List (Addr × τ) → Ptr → Prop
  | p, [], q => p = q
  | p, e :: l, q => p = some e.1 ∧ ∃ n, m e.1 = some n ∧ val n = e.2 ∧ Chain m (next n) l q

variable {m m' : Mem ν} {p q q' : Ptr} {e d : Addr × τ} {l l' l₁ l₂ : List (Addr × τ)} {n nd nx : ν}
  {x : Addr}

/-- A chain depends on its own nodes only. -/
theorem Chain.congr (h : Chain m p l q) (hm : ∀ e ∈ l, m' e.1 = m e.1) : Chain m' p l q := by
  induction l generalizing p with
  | nil => exact h
  | cons e l ih =>
    obtain ⟨hp, n, hn, hv, hl⟩ := h
    refine ⟨hp, n, ?_, hv, ih hl fun b hb => hm b (List.mem_cons_of_mem e hb)⟩
    rw [hm e List.mem_cons_self, hn]

theorem chain_append :
    Chain m p (l₁ ++ l₂) q ↔ ∃ r, Chain m p l₁ r ∧ Chain m r l₂ q := by
  induction l₁ generalizing p with
  | nil => simp [Chain]
  | cons e l₁ ih =>
    constructor
    · rintro ⟨hp, n, hn, hv, hl⟩
      obtain ⟨r, h₁, h₂⟩ := ih.mp hl
      exact ⟨r, ⟨hp, n, hn, hv, h₁⟩, h₂⟩
    · rintro ⟨r, ⟨hp, n, hn, hv, h₁⟩, h₂⟩
      exact ⟨hp, n, hn, hv, ih.mpr ⟨r, h₁, h₂⟩⟩

/-- **The node at a position** is alive, and the rest of the chain is entered through it. -/
theorem Chain.node (h : Chain m p (l₁ ++ e :: l₂) q) :
    ∃ n, m e.1 = some n ∧ val n = e.2 ∧ Chain m (next n) l₂ q := by
  obtain ⟨r, -, -, n, hn, hv, h₂⟩ := chain_append.mp h
  exact ⟨n, hn, hv, h₂⟩

/-- The nodes of a chain are alive, and hold their values. -/
theorem Chain.exists_node (h : Chain m p l q) (he : e ∈ l) : ∃ n, m e.1 = some n ∧ val n = e.2 := by
  obtain ⟨l₁, l₂, rfl⟩ := List.append_of_mem he
  obtain ⟨n, hn, hv, -⟩ := h.node
  exact ⟨n, hn, hv⟩

/-- The nodes of a chain are alive: a new one is none of them. -/
theorem Chain.ne_of_mem (h : Chain m p l q) (he : e ∈ l) (hx : m x = none) : e.1 ≠ x := by
  rintro rfl
  obtain ⟨l₁, l₂, rfl⟩ := List.append_of_mem he
  obtain ⟨n, hn, -⟩ := h.node
  exact Option.some_ne_none n (hn.symm.trans hx)

/-- A pointer leads to one chain only. -/
theorem Chain.unique (h : Chain m p l none) (h' : Chain m p l' none) : l = l' := by
  induction l generalizing p l' with
  | nil =>
    cases l' with
    | nil => rfl
    | cons e l' => exact absurd (h.symm.trans h'.1) (by simp)
  | cons e l ih =>
    obtain ⟨rfl, n, hn, hv, hl⟩ := h
    cases l' with
    | nil => exact absurd h' (by simp [Chain])
    | cons e' l' =>
      obtain ⟨ha, n', hn', hv', hl'⟩ := h'
      have haddr : e.1 = e'.1 := Option.some.inj ha
      obtain rfl : n = n' := Option.some.inj (hn.symm.trans (haddr ▸ hn'))
      rw [ih hl hl', Prod.ext haddr (hv.symm.trans hv')]

/-- Two chains of different lengths are not entered through one pointer. -/
theorem Chain.ptr_ne (h : Chain m p l none) (h' : Chain m q l' none)
    (hlen : l.length ≠ l'.length) : p ≠ q := by
  rintro rfl
  exact hlen (congrArg List.length (h.unique h'))

/-- **A chain that ends at null has no repetitions.** -/
theorem Chain.nodup (h : Chain m p l none) : (l.map Prod.fst).Nodup := by
  induction l generalizing p with
  | nil => exact List.nodup_nil
  | cons e l ih =>
    obtain ⟨n, -, -, hl⟩ := h.2
    rw [List.map_cons, List.nodup_cons]
    refine ⟨fun hmem => ?_, ih hl⟩
    obtain ⟨d, hd, hde⟩ := List.mem_map.mp hmem
    obtain ⟨l₁, l₂, rfl⟩ := List.append_of_mem hd
    -- from the second occurrence on the chain would be the same again
    obtain ⟨r, -, hrep⟩ := chain_append.mp hl
    have hr : r = p := by
      rw [hrep.1, h.1, hde]
    have hlen := congrArg List.length (h.unique (hr ▸ hrep))
    simp only [List.length_cons, List.length_append] at hlen
    omega

/-! ### Changes -/

/-- **A node is put in front of a chain** that it is not on. -/
theorem Chain.link (h : Chain m p l q) (hn : m e.1 = some n) (hv : val n = e.2)
    (he : e.1 ∉ l.map Prod.fst) : m.modify (some e.1) (setNext p) = pure (m.set e.1 (setNext p n)) ∧
      Chain (m.set e.1 (setNext p n)) (some e.1) (e :: l) q := by
  refine ⟨Mem.modify_some hn _, rfl, _, Mem.set_self _ _ _, (val_setNext _ _).trans hv, ?_⟩
  rw [next_setNext]
  exact h.congr fun d hd => Mem.set_of_ne _ _ fun hde => he (hde ▸ List.mem_map_of_mem hd)

/-- The last node of a chain is redirected. -/
theorem Chain.redirect (h : Chain m p (l ++ [e]) q) (hnd : ((l ++ [e]).map Prod.fst).Nodup)
    (hn : m e.1 = some n) (q' : Ptr) : Chain (m.set e.1 (setNext q' n)) p (l ++ [e]) q' := by
  obtain ⟨r, h₁, hr, n', hn', hv, -⟩ := chain_append.mp h
  obtain rfl : n = n' := Option.some.inj (hn.symm.trans hn')
  have hmem : e.1 ∉ l.map Prod.fst := by
    rw [List.map_append, List.nodup_append] at hnd
    exact fun hmem => hnd.2.2 _ hmem _ (List.mem_singleton.mpr rfl) rfl
  refine chain_append.mpr ⟨r, h₁.congr fun b hb => Mem.set_of_ne _ _ ?_, hr, ?_⟩
  · rintro hbe
    exact hmem (hbe ▸ List.mem_map_of_mem hb)
  · exact ⟨setNext q' n, Mem.set_self _ _ _, (val_setNext _ _).trans hv, next_setNext _ _⟩

/-- The part of a chain up to a node, and the rest. -/
theorem Chain.split (h : Chain m p (l₁ ++ e :: l₂) none) (hn : m e.1 = some n) :
    Chain m p (l₁ ++ [e]) (next n) ∧ Chain m (next n) l₂ none ∧
      ((l₁ ++ [e]).map Prod.fst).Nodup ∧ ∀ d ∈ l₂, d.1 ∉ (l₁ ++ [e]).map Prod.fst := by
  have hnd := h.nodup
  rw [List.append_cons] at h hnd
  obtain ⟨r, h₁, h₂⟩ := chain_append.mp h
  obtain ⟨r', -, -, n', hn', -, hr⟩ := chain_append.mp h₁
  obtain rfl : n = n' := Option.some.inj (hn.symm.trans hn')
  obtain rfl : next n = r := hr
  rw [List.map_append, List.nodup_append] at hnd
  exact ⟨h₁, h₂, hnd.1, fun d hd hmem => hnd.2.2 _ hmem _ (List.mem_map_of_mem hd) rfl⟩

/-- **A node is inserted behind another one.** -/
theorem Chain.insertAfter (h : Chain m p (l₁ ++ e :: l₂) none) (hn : m e.1 = some n)
    (hx : m x = none) (hnx : next nx = next n) :
    Chain ((m.set x nx).set e.1 (setNext (some x) n)) p (l₁ ++ e :: (x, val nx) :: l₂) none := by
  obtain ⟨h₁, h₂, hnd, hdis⟩ := h.split hn
  have hxe : x ≠ e.1 := fun hxe => Option.some_ne_none n (hn.symm.trans (hxe ▸ hx))
  have hfront : Chain (m.set x nx) p (l₁ ++ [e]) (next n) :=
    h₁.congr fun b hb => Mem.set_of_ne m nx (h₁.ne_of_mem hb hx)
  have hback : Chain ((m.set x nx).set e.1 (setNext (some x) n)) (next n) l₂ none := by
    refine h₂.congr fun b hb => ?_
    have hbe : b.1 ≠ e.1 := fun hbe => hdis b hb (by simp [hbe])
    rw [Mem.set_of_ne _ _ hbe, Mem.set_of_ne _ _ (h₂.ne_of_mem hb hx)]
  rw [List.append_cons]
  refine chain_append.mpr ⟨some x, hfront.redirect hnd ?_ (some x), rfl, nx, ?_, rfl, ?_⟩
  · rw [Mem.set_of_ne _ _ hxe.symm, hn]
  · rw [Mem.set_of_ne _ _ hxe, Mem.set_self]
  · rwa [hnx]

/-- **The node behind another one is removed.** -/
theorem Chain.removeAfter (h : Chain m p (l₁ ++ e :: d :: l₂) none) (hn : m e.1 = some n)
    (hd : m d.1 = some nd) :
    Chain ((m.set e.1 (setNext (next nd) n)).clear d.1) p (l₁ ++ e :: l₂) none := by
  obtain ⟨h₁, h₂, hnd, hdis⟩ := h.split hn
  obtain ⟨-, hrest, -, hdis₂⟩ := (show Chain m (next n) ([] ++ d :: l₂) none from h₂).split hd
  rw [List.append_cons]
  refine chain_append.mpr ⟨next nd, (h₁.redirect hnd hn _).congr fun b hb => ?_,
    hrest.congr fun b hb => ?_⟩
  · refine Mem.clear_of_ne _ fun hbd => hdis d List.mem_cons_self ?_
    exact hbd ▸ List.mem_map_of_mem hb
  · have hbd : b.1 ≠ d.1 := fun hbd => hdis₂ b hb (by simp [hbd])
    have hbe : b.1 ≠ e.1 := fun hbe => hdis b (List.mem_cons_of_mem d hb) (by simp [hbe])
    rw [Mem.clear_of_ne _ hbd, Mem.set_of_ne _ _ hbe]

end Cpp

end Candcpp
