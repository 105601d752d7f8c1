import Candcpp.Object
import Candcpp.Cpp.Buffers

/-!
# A vector that grows

The class template `Vector` of `vector.h`: a buffer allocated with `new`, of which the first `size`
elements have been appended. A vector that is full, but for one element, moves to a buffer of twice
the capacity.

The capacity given to the constructor decides whether that makes room. Zero doubled is zero, and
then the first element is stored beyond the buffer; every other capacity is fine
(`Candcpp.Vector.model`, `Candcpp.Vector.Good`), up to the vector that moves more elements than the
`int` of the copying loop counts. **The elements of a vector are those appended, in order, exactly
if the initial capacity is not zero, or nothing is appended**, and no buffer has to be moved that
large (`Candcpp.Vector.append_iff`).

A size or a capacity is a `size_t`, computed modulo `Candcpp.Vector.sizeMod`. What `new` returns is
a `Candcpp.Cpp.Block`, whose address was free.
-/

namespace Candcpp

open Cpp

/-- `class Vector`. -/
structure Vector where
  capacity : ℕ
  size : ℕ
  data : Ptr
  deriving DecidableEq, Repr

namespace Vector

variable {α : Type}

/-! ### The code -/

/-- How many values a `size_t` has. -/
def sizeMod : ℕ := 2 ^ 64

/-- `Vector(capacity)`. -/
def construct (heap : Mem (Arr α)) (capacity : ℕ) (b : Block α) : Vector × Mem (Arr α) :=
  ({ capacity := capacity, size := 0, data := some b.addr }, heap.alloc b capacity)

/-- `Vector()`. -/
def constructDefault (heap : Mem (Arr α)) (b : Block α) : Vector × Mem (Arr α) :=
  construct heap 4 b

/-- `Vector(v)`, the copy constructor. -/
def copyConstruct (heap : Mem (Arr α)) (v : Vector) (b : Block α) :
    Exec (Vector × Mem (Arr α)) := do
  let heap ← (heap.alloc b v.capacity).copyTo v.data (some b.addr) 0 v.size
  pure ({ v with data := some b.addr }, heap)

/-- What `append` does to a vector that is full. -/
def grow (heap : Mem (Arr α)) (v : Vector) (b : Block α) : Exec (Vector × Mem (Arr α)) := do
  let capacity := v.capacity * 2 % sizeMod
  let heap ← (heap.alloc b capacity).copyTo v.data (some b.addr) 0 v.size
  let heap ← heap.delete v.data
  pure ({ v with capacity := capacity, data := some b.addr }, heap)

/-- `append(value)`. -/
def append (heap : Mem (Arr α)) (v : Vector) (value : α) (b : Block α) :
    Exec (Vector × Mem (Arr α)) := do
  let r ← if v.capacity ≤ (v.size + 1) % sizeMod then grow heap v b else pure (v, heap)
  let heap ← r.2.putAt r.1.data r.1.size value
  pure ({ r.1 with size := (r.1.size + 1) % sizeMod }, heap)

/-- `swap_(p[i], p[j])`. -/
def swap_ (heap : Mem (Arr α)) (p : Ptr) (i j : ℤ) : Exec (Mem (Arr α)) := do
  let temp ← heap.getAt p i
  let x ← heap.getAt p j
  let heap ← heap.putAt p i x
  heap.putAt p j temp

/-- The inner loop of `sort`, from `j = i + n` down to `i + 1`. -/
def bubble (lt : α → α → Bool) (heap : Mem (Arr α)) (p : Ptr) (i : ℤ) : ℕ → Exec (Mem (Arr α))
  | 0 => pure heap
  | n + 1 => do
    let j := i + n + 1
    let x ← heap.getAt p j
    let y ← heap.getAt p (j - 1)
    let heap ← if lt x y then swap_ heap p j (j - 1) else pure heap
    bubble lt heap p i n

/-- `size - 1`. -/
def last (v : Vector) : ℕ := (v.size + (sizeMod - 1)) % sizeMod

/-- The value of a `size_t` as an `int`. -/
def toInt (n : ℕ) : ℤ := Int.bmod n (2 ^ 32)

/-- The outer loop of `sort`, with the number of rounds that are left. -/
def sortLoop (lt : α → α → Bool) (heap : Mem (Arr α)) (v : Vector) (i : ℤ) :
    ℕ → Exec (Mem (Arr α))
  | 0 => pure heap
  | n + 1 => do
    let j := toInt v.last
    let heap ← bubble lt heap v.data i (j - i).toNat
    let i ← int (i + 1)
    sortLoop lt heap v i n

/-- `sort()`, where `lt` is the operator `<` of the elements. -/
def sort (lt : α → α → Bool) (heap : Mem (Arr α)) (v : Vector) : Exec (Mem (Arr α)) :=
  sortLoop lt heap v 0 v.last

/-- The elements that stand in a vector. -/
def elements (heap : Mem (Arr α)) (v : Vector) : Option (List α) :=
  v.data.bind fun a => (heap a).map fun arr => arr.toList.take v.size

/-! ### The vector that is appended to -/

/-- A vector and the heap, under the calls of `append`. -/
def object (α : Type) : Object (Vector × Mem (Arr α)) (α × Block α) Unit where
  allowed := fun s a => s.2 a.2.addr = none
  exec := fun s a => do
    let r ← append s.2 s.1 a.1 a.2
    pure ((), r)

/-- What appending is to do: the capacity doubles as long as it is not greater than the size. -/
def model (α : Type) : Model (ℕ × List α) (α × Block α) Unit where
  answer := fun _ _ => ()
  next := fun x a => (if x.1 ≤ x.2.length + 1 then x.1 * 2 else x.1, x.2 ++ [a.1])

/-- The appends that the code can do: there is a capacity to double, and an `int` counts the
elements that are moved. -/
def Good (x : ℕ × List α) (_ : α × Block α) : Prop :=
  0 < x.1 ∧ (x.1 ≤ x.2.length + 1 → (x.2.length : ℤ) ≤ intMax)

/-- A vector of some capacity holds a list. -/
structure Stores (heap : Mem (Arr α)) (v : Vector) (l : List α) : Prop where
  size_le : v.size ≤ v.capacity
  buffer : ∃ a arr, v.data = some a ∧ heap a = some arr ∧ arr.size = v.capacity
  elements_eq : elements heap v = some l

/-- The vector and the heap after appending to a vector of capacity `x.1` with elements `x.2`. -/
structure Appended (s : Vector × Mem (Arr α)) (x : ℕ × List α) : Prop where
  capacity : s.1.capacity = x.1
  size : s.1.size = x.2.length
  room : 0 < x.1 ∧ x.2.length < x.1 ∨ x.1 = 0 ∧ x.2 = []
  lt_sizeMod : x.1 < sizeMod
  buffer : ∃ a arr, s.1.data = some a ∧ s.2 a = some arr ∧ arr.size = x.1 ∧
    x.2 = (List.range x.2.length).map arr.data

variable {heap heap' : Mem (Arr α)} {v v' : Vector} {x : ℕ × List α} {l : List α} {b : Block α}
  {value : α} {c n : ℕ}

/-- The elements of an array up to one that is written. -/
theorem map_range_update (data : ℕ → α) (n : ℕ) (value : α) :
    (List.range (n + 1)).map (Function.update data n value) =
      (List.range n).map data ++ [value] := by
  rw [List.range_succ, List.map_append, List.map_singleton, Function.update_self]
  refine congrArg (· ++ [value]) (List.map_congr_left fun i hi => ?_)
  exact Function.update_of_ne (Nat.ne_of_lt (List.mem_range.mp hi)) value data

/-- The vector that has been appended to holds the list. -/
theorem Appended.stores (h : Appended (v, heap) x) : Stores heap v x.2 := by
  obtain ⟨a, arr, ha, harr, hsize, hl⟩ := h.buffer
  have hle : v.size ≤ v.capacity := by
    rw [h.size, h.capacity]
    rcases h.room with ⟨-, hlt⟩ | ⟨hc, hnil⟩
    · exact hlt.le
    · rw [hnil, hc, List.length_nil]
  refine ⟨hle, ⟨a, arr, ha, harr, hsize.trans h.capacity.symm⟩, ?_⟩
  rw [elements, show v.data = some a from ha, Option.bind_some, show heap a = some arr from harr,
    Option.map_some, Arr.toList, ← List.map_take, List.take_range, hsize, ← h.capacity,
    min_eq_left hle, show v.size = x.2.length from h.size, ← hl]

/-- A new vector holds nothing. -/
theorem appended_construct (heap : Mem (Arr α)) (b : Block α) (hc : c < sizeMod) :
    Appended (construct heap c b) (c, []) where
  capacity := rfl
  size := rfl
  room := (Nat.eq_zero_or_pos c).elim (fun h => .inr ⟨h, rfl⟩) fun h => .inl ⟨h, h⟩
  lt_sizeMod := hc
  buffer := ⟨b.addr, _, rfl, Mem.set_self heap b.addr _, rfl, rfl⟩

/-- **Storing** the next element, where there is room. -/
theorem appended_put (heap : Mem (Arr α)) (x : ℕ × List α) (hcap : v.capacity = x.1)
    (hsize : v.size = x.2.length) (hroom : x.2.length + 1 < x.1) (hmod : x.1 < sizeMod)
    (hbuffer : ∃ a arr, v.data = some a ∧ heap a = some arr ∧ arr.size = x.1 ∧
      x.2 = (List.range x.2.length).map arr.data) (value : α) :
    ∃ heap', heap.putAt v.data v.size value = pure heap' ∧
      Appended ({ v with size := (v.size + 1) % sizeMod }, heap') (x.1, x.2 ++ [value]) := by
  obtain ⟨a, arr, ha, harr, hsz, hl⟩ := hbuffer
  refine ⟨_, by rw [ha, hsize]; exact Mem.putAt_eq harr (by omega) value, hcap, ?_,
    .inl ⟨by omega, ?_⟩, hmod, a, ⟨Function.update arr.data x.2.length value, arr.size⟩, ha,
    Mem.set_self .., hsz, ?_⟩
  · show (v.size + 1) % sizeMod = _
    rw [hsize, Nat.mod_eq_of_lt (by omega), List.length_append, List.length_singleton]
  · rwa [List.length_append, List.length_singleton]
  · rw [List.length_append, List.length_singleton, map_range_update, ← hl]

/-- **Growing** gives twice the room, and keeps the elements. -/
theorem grow_eq (h : Appended (v, heap) x) (hb : heap b.addr = none)
    (hint : (x.2.length : ℤ) ≤ intMax) (hfull : x.1 ≤ x.2.length + 1) :
    ∃ heap', grow heap v b =
        pure ({ v with capacity := x.1 * 2, data := some b.addr }, heap') ∧
      ∃ arr, heap' b.addr = some arr ∧ arr.size = x.1 * 2 ∧
        x.2 = (List.range x.2.length).map arr.data := by
  obtain ⟨a, arr, ha, harr, hsize, hl⟩ := h.buffer
  have hcap : v.capacity = x.1 := h.capacity
  have hlen : v.size = x.2.length := h.size
  have hab : a ≠ b.addr := by
    rintro rfl
    exact nomatch harr.symm.trans hb
  have hle : x.2.length ≤ x.1 := by
    rcases h.room with ⟨-, hlt⟩ | ⟨-, hnil⟩
    · exact hlt.le
    · rw [hnil]
      exact Nat.zero_le _
  have hdouble : v.capacity * 2 % sizeMod = x.1 * 2 := by
    rw [hcap]
    refine Nat.mod_eq_of_lt ?_
    rw [sizeMod]
    rw [intMax] at hint
    omega
  have hcopy := Mem.copyTo_alloc (n := v.size) harr hb (by omega)
    (show v.size ≤ x.1 * 2 by omega) (by rwa [hlen])
  refine ⟨(heap.set b.addr (b.copied arr v.size (x.1 * 2))).clear a, ?_,
    b.copied arr v.size (x.1 * 2), ?_, rfl, ?_⟩
  · rw [grow, hdouble, show v.data = some a from ha, hcopy, pure_bind,
      Mem.delete_some ((Mem.set_of_ne heap _ hab).trans harr), pure_bind]
  · rw [Mem.clear_of_ne _ hab.symm, Mem.set_self]
  · rw [← hlen, Block.map_copied, hlen, ← hl]

/-- **A good append** stores its element. -/
theorem append_eq (h : Appended (v, heap) x) (hb : heap b.addr = none) (hgood : Good x (value, b)) :
    ∃ s, append heap v value b = pure s ∧ Appended s ((model α).next x (value, b)) := by
  have hcap : v.capacity = x.1 := h.capacity
  have hlen : v.size = x.2.length := h.size
  have hlt : x.2.length < x.1 := by
    rcases h.room with ⟨-, hlt⟩ | ⟨hc, -⟩
    · exact hlt
    · exact absurd hc (Nat.ne_of_gt hgood.1)
  have hmod := h.lt_sizeMod
  have hsucc : (v.size + 1) % sizeMod = x.2.length + 1 := by
    rw [hlen]
    exact Nat.mod_eq_of_lt (by omega)
  rw [append, hsucc, hcap]
  dsimp only [model]
  by_cases hfull : x.1 ≤ x.2.length + 1
  · obtain ⟨heap', hgrow, arr, harr, hsize, hl⟩ := grow_eq h hb (hgood.2 hfull) hfull
    have hdouble : x.1 * 2 < sizeMod := by
      have hint := hgood.2 hfull
      rw [intMax] at hint
      rw [sizeMod]
      omega
    obtain ⟨heap'', hput, happ⟩ := appended_put heap' (x.1 * 2, x.2)
      (v := { v with capacity := x.1 * 2, data := some b.addr }) rfl hlen (by dsimp only; omega)
      hdouble ⟨b.addr, arr, rfl, harr, hsize, hl⟩ value
    refine ⟨_, ?_, by rw [if_pos hfull]; exact happ⟩
    rw [if_pos hfull, hgrow, pure_bind, hput, pure_bind]
  · obtain ⟨heap', hput, happ⟩ := appended_put heap x hcap hlen (by omega) hmod h.buffer value
    refine ⟨_, ?_, by rw [if_neg hfull]; exact happ⟩
    rw [if_neg hfull, pure_bind, hput, pure_bind]

/-- **A vector that has grown** has a new buffer, and its old one is deleted. -/
theorem grow_eq_pure {r : Vector × Mem (Arr α)} (h : grow heap v b = pure r) :
    (0 < v.size → (v.size : ℤ) ≤ intMax) ∧ ∃ arr, arr.size = v.capacity * 2 % sizeMod ∧
      (heap.set b.addr arr).delete v.data = pure r.2 ∧
      r.1 = { v with capacity := v.capacity * 2 % sizeMod, data := some b.addr } := by
  obtain ⟨heap₁, hcopy, h⟩ := Exec.bind_eq_pure.mp h
  obtain ⟨heap₂, hdelete, h⟩ := Exec.bind_eq_pure.mp h
  obtain rfl := Exec.pure_inj.mp h
  refine ⟨fun hpos => ?_, ?_⟩
  · have hint := Mem.le_intMax_of_copyTo hpos hcopy
    rwa [Nat.zero_add] at hint
  · obtain ⟨arr, hsize, rfl⟩ := Mem.eq_set_of_copyTo hcopy
    exact ⟨arr, hsize, hdelete, rfl⟩

/-- An append that is not good does not return. -/
theorem append_ne_pure (h : Appended (v, heap) x) (hb : heap b.addr = none)
    (hgood : ¬ Good x (value, b)) (s : Vector × Mem (Arr α)) : append heap v value b ≠ pure s := by
  intro happ
  obtain ⟨a, arr, ha, harr, -, -⟩ := h.buffer
  have hcap : v.capacity = x.1 := h.capacity
  have hlen : v.size = x.2.length := h.size
  rw [append] at happ
  rcases h.room with ⟨hpos, hlt⟩ | ⟨hc, hnil⟩
  · -- there are more elements to move than an `int` counts
    have hfull : x.1 ≤ x.2.length + 1 ∧ intMax < x.2.length := by
      by_contra hcon
      refine hgood ⟨hpos, fun hfull => ?_⟩
      by_contra hint
      exact hcon ⟨hfull, not_le.mp hint⟩
    have hmod : (v.size + 1) % sizeMod = x.2.length + 1 := by
      rw [hlen]
      exact Nat.mod_eq_of_lt (lt_of_le_of_lt hlt h.lt_sizeMod)
    rw [hmod, hcap, if_pos hfull.1] at happ
    obtain ⟨r, hr, -⟩ := Exec.bind_eq_pure.mp happ
    have hint := (grow_eq_pure hr).1
    rw [hlen] at hint
    have h0 : (0 : ℤ) < intMax := by decide
    have := hint (by omega)
    omega
  · -- a capacity of zero, doubled, leaves no room for the first element
    rw [hcap, hc, if_pos (Nat.zero_le _)] at happ
    obtain ⟨r, hr, happ⟩ := Exec.bind_eq_pure.mp happ
    obtain ⟨-, arr', hsize, hdelete, hv⟩ := grow_eq_pure hr
    have hab : b.addr ≠ a := by
      rintro rfl
      exact nomatch harr.symm.trans hb
    rw [ha, Mem.delete_some ((Mem.set_of_ne heap arr' hab.symm).trans harr)] at hdelete
    have hheap := Exec.pure_inj.mp hdelete
    obtain ⟨heap'', hput, -⟩ := Exec.bind_eq_pure.mp happ
    rw [hv] at hput
    have hnew : r.2 b.addr = some arr' := by
      rw [← hheap, Mem.clear_of_ne _ hab, Mem.set_self]
    obtain ⟨-, hlt, -⟩ := Mem.putAt_eq_pure hnew hput
    rw [hsize, hcap, hc] at hlt
    exact absurd hlt (Nat.not_lt_zero _)

theorem simulates : (object α).Simulates (model α) Appended Good := by
  rintro ⟨v, heap⟩ x ⟨value, b⟩ h hb hgood
  obtain ⟨s, hs, happ⟩ := append_eq h hb hgood
  refine ⟨s, ?_, happ⟩
  show (append heap v value b >>= _) = _
  rw [hs, pure_bind]

/-! ### Which capacities make room -/

/-- The vector grows when it holds one element less than the initial capacity, doubled any number
of times. -/
theorem guarded_iff {c : ℕ} (xs : List α) (l : List (α × Block α)) (hlt : xs.length < c) :
    (model α).Guarded Good (c, xs) l ↔
      ∀ k, c * 2 ^ k ≤ xs.length + l.length → ((c * 2 ^ k : ℕ) : ℤ) ≤ intMax + 1 := by
  induction l generalizing c xs with
  | nil =>
    refine iff_of_true trivial fun k hk => ?_
    have := Nat.le_mul_of_pos_right c (Nat.two_pow_pos k)
    rw [List.length_nil] at hk
    omega
  | cons a l ih =>
    rw [List.length_cons]
    by_cases hfull : c ≤ xs.length + 1
    -- the buffer is full, and is replaced by one of the next capacity
    · have hc : c = xs.length + 1 := le_antisymm hfull hlt
      have hnext : (model α).next (c, xs) a = (c * 2, xs ++ [a.1]) := by
        simp only [model, if_pos hfull]
      rw [Model.Guarded, hnext, ih _ (by rw [List.length_append, List.length_singleton]; omega),
        List.length_append, List.length_singleton]
      constructor
      · rintro ⟨⟨-, hgood⟩, hrest⟩ k hk
        cases k with
        | zero =>
          have := hgood hfull
          push_cast
          dsimp only at this
          omega
        | succ k =>
          rw [pow_succ', ← mul_assoc] at hk ⊢
          exact hrest k (by omega)
      · intro h
        refine ⟨⟨by dsimp only; omega, fun _ => ?_⟩, fun k hk => ?_⟩
        · have := h 0 (by omega)
          rw [pow_zero, mul_one] at this
          dsimp only
          omega
        · have := h (k + 1) (by rw [pow_succ', ← mul_assoc]; omega)
          rwa [pow_succ', ← mul_assoc] at this
    -- the capacity stays what it is
    · have hnext : (model α).next (c, xs) a = (c, xs ++ [a.1]) := by
        simp only [model, if_neg hfull]
      rw [Model.Guarded, hnext, ih _ (by rw [List.length_append, List.length_singleton]; omega),
        List.length_append, List.length_singleton, Nat.add_right_comm, Nat.add_assoc]
      exact and_iff_right ⟨Nat.zero_lt_of_lt hlt, fun h => absurd h hfull⟩

/-- The capacities and the numbers of elements that are good from the beginning. -/
theorem guarded_nil_iff (l : List (α × Block α)) :
    (model α).Guarded Good (c, []) l ↔
      (l = [] ∨ 0 < c) ∧ ∀ k, c * 2 ^ k ≤ l.length → c * 2 ^ k ≤ 2 ^ 31 := by
  rcases Nat.eq_zero_or_pos c with rfl | hc
  · simp only [Nat.zero_mul, Nat.zero_le, implies_true, and_true, lt_irrefl, or_false]
    cases l with
    | nil => exact iff_of_true trivial rfl
    | cons a l => exact iff_of_false (fun h => absurd h.1.1 (lt_irrefl _)) (List.cons_ne_nil a l)
  · have hmax : ∀ n : ℕ, (n : ℤ) ≤ intMax + 1 ↔ n ≤ 2 ^ 31 := by
      intro n
      rw [intMax]
      omega
    rw [guarded_iff [] l hc]
    simp only [List.length_nil, Nat.zero_add, hmax, hc, or_true, true_and]

/-- What has been appended. -/
theorem after_snd (x : ℕ × List α) (l : List (α × Block α)) :
    ((model α).after x l).2 = x.2 ++ l.map Prod.fst := by
  induction l generalizing x with
  | nil => exact (List.append_nil _).symm
  | cons a l ih =>
    show ((model α).after ((model α).next x a) l).2 = _
    rw [ih, List.map_cons, List.append_cons]
    rfl

/-- **Appending to a vector of initial capacity `c`** returns, with the size at most the capacity
and the elements those appended, after each call, exactly if `c` is not zero, or nothing is
appended, and no buffer is full of more than `2 ^ 31` elements less one. -/
theorem append_iff (heap : Mem (Arr α)) (b : Block α) {l : List (α × Block α)} (hc : c < sizeMod)
    (hall : (object α).AllowedAll (construct heap c b) l) :
    (∀ l', l' <+: l → ∃ r, (object α).calls (construct heap c b) l' = pure r ∧
        Stores r.2.2 r.2.1 (l'.map Prod.fst)) ↔
      (l = [] ∨ 0 < c) ∧ ∀ k, c * 2 ^ k ≤ l.length → c * 2 ^ k ≤ 2 ^ 31 := by
  have hinit := appended_construct heap b hc
  have hfault : ∀ s x a, Appended s x → (object α).allowed s a → ¬ Good x a →
      ∀ r, (object α).exec s a ≠ pure r := by
    intro s x a h hb hgood r hr
    obtain ⟨t, ht, -⟩ := Exec.bind_eq_pure.mp hr
    exact append_ne_pure h hb hgood t ht
  rw [← guarded_nil_iff]
  constructor
  · intro h
    obtain ⟨r, hr, -⟩ := h l (List.prefix_refl l)
    exact simulates.guarded hfault hinit hall hr
  · rintro hgood l' ⟨t, rfl⟩
    obtain ⟨s, hs, happ⟩ := simulates.calls hinit hall.of_append hgood.of_append
    refine ⟨_, hs, ?_⟩
    have hstores := happ.stores
    rwa [after_snd, List.nil_append] at hstores

/-- A vector of capacity 1 grows for its first element. -/
theorem append_iff_one : ∃ r, (object ℤ).calls (construct (fun _ => none) 1 ⟨0, fun _ => 0⟩)
    [(5, ⟨1, fun _ => 0⟩)] = pure r ∧ Stores r.2.2 r.2.1 [5] := by
  have hall : (object ℤ).AllowedAll (construct (fun _ => none) 1 ⟨0, fun _ => 0⟩)
      [(5, ⟨1, fun _ => 0⟩)] := ⟨rfl, fun _ _ => trivial⟩
  refine (append_iff _ _ (by decide) hall).mpr ⟨.inr (by decide), ?_⟩ _ (List.prefix_refl _)
  intro k hk
  exact hk.trans (by decide)

/-- A vector of capacity 0 stores its first element beyond its buffer. -/
theorem not_append : ¬ ∀ (c : ℕ) (heap : Mem (Arr ℤ)) (b : Block ℤ) (l : List (ℤ × Block ℤ)),
    c < sizeMod → (object ℤ).AllowedAll (construct heap c b) l → ∀ l', l' <+: l →
      ∃ r, (object ℤ).calls (construct heap c b) l' = pure r ∧
        Stores r.2.2 r.2.1 (l'.map Prod.fst) := by
  intro h
  obtain ⟨r, hr, -⟩ := h 0 (fun _ => none) ⟨0, fun _ => 0⟩ [(5, ⟨1, fun _ => 0⟩)] (by decide)
    ⟨rfl, fun _ _ => trivial⟩ _ (List.prefix_refl _)
  obtain ⟨p, hp, -⟩ := Exec.bind_eq_pure.mp hr
  obtain ⟨s, hs, -⟩ := Exec.bind_eq_pure.mp hp
  exact append_ne_pure (appended_construct _ _ (by decide)) rfl
    (fun hgood => absurd hgood.1 (lt_irrefl 0)) s hs

end Vector

end Candcpp
