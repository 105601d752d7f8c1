import Mathlib

/-!
# Executions that can go wrong

The base of every pointer or array program of this development: an execution
either returns a value, or stops at a fault, or never returns.

`Candcpp.Cpp.Exec` is the monad of such executions. It is an exception monad over
`Option`, where `none` is a run that does not return, so that a `while` loop is
translated as it stands, as a `partial_fixpoint`: a theorem that a loop returns
`pure x` says at once that it terminates, that it commits no fault, and what it
computes. The line `let +zeta f : type_of% f := by apply f` in front of its body names the
function `f` for the calls to itself. Nothing of the line is left in the definition, nor of the
places at which the calls stand in the file.

The objects of a class live in a `Candcpp.Cpp.Mem`: a partial map from addresses,
defined at the objects that have been allocated and not yet deleted. A pointer
is null or an address, and nothing keeps an address from being used again once
its object is gone. A `Candcpp.Cpp.Arr` is an array, of which only the elements within
its bounds may be read or written; the same goes for a vector or a string, which is a list.
-/

namespace Candcpp

namespace Cpp

/-! ### Executions -/

/-- The faults an execution can commit. -/
inductive Fault where
  /-- A null pointer is dereferenced. -/
  | nullDeref : Fault
  /-- A pointer to an object that is not alive is dereferenced or deleted. -/
  | dangling : Fault
  /-- An array is read or written outside its bounds. -/
  | outOfRange : Fault
  /-- An empty `std::function` is called. -/
  | emptyFunction : Fault
  /-- The value of an expression of type `int` is not one of an `int`. -/
  | overflow : Fault
  /-- The top of an empty stack is read or removed. -/
  | emptyStack : Fault
  /-- The front of an empty queue is read or removed. -/
  | emptyQueue : Fault
  /-- A string is asked to reserve more than it can hold. -/
  | lengthError : Fault
  deriving DecidableEq, Repr

/-- **Executions**: a value, a fault, or no return at all. -/
abbrev Exec (α : Type) := ExceptT Fault Option α

/-- What an execution comes to. A function that calls itself is translated with this type where
the calls that do not return are at issue. -/
abbrev Result (α : Type) := Option (Except Fault α)

namespace Exec

variable {α β : Type}

theorem pure_inj {a b : α} : (pure a : Exec α) = pure b ↔ a = b := by
  constructor
  · intro h
    exact Except.ok.inj (Option.some.inj h)
  · rintro rfl
    rfl

/-- What an execution returns is one value. -/
theorem pure_unique {e : Exec α} {a b : α} (ha : e = pure a) (hb : e = pure b) : a = b :=
  pure_inj.mp (ha.symm.trans hb)

theorem pure_ne_throw (a : α) (f : Fault) : (pure a : Exec α) ≠ throw f := by
  intro h
  cases Option.some.inj h

/-- **A sequence returns** exactly if its parts do. -/
theorem bind_eq_pure {e : Exec α} {f : α → Exec β} {b : β} :
    e >>= f = pure b ↔ ∃ a, e = pure a ∧ f a = pure b := by
  constructor
  · intro h
    match e, h with
    | some (.ok a), h => exact ⟨a, rfl, h⟩
    | some (.error f), h => exact absurd h.symm (pure_ne_throw b f)
    | none, h => cases h
  · rintro ⟨a, rfl, h⟩
    rw [pure_bind, h]

/-- **A sequence ends** where its first part stops at a fault, or where its second part ends. -/
theorem bind_eq_some {e : Exec α} {f : α → Exec β} {q : Except Fault β} :
    (e >>= f).run = some q ↔
      (∃ x, e = throw x ∧ q = .error x) ∨ ∃ a, e = pure a ∧ (f a).run = some q := by
  constructor
  · intro h
    match e, h with
    | some (.ok a), h => exact .inr ⟨a, rfl, h⟩
    | some (.error x), h => exact .inl ⟨x, rfl, (Option.some.inj h).symm⟩
    | none, h => cases h
  · rintro (⟨x, rfl, rfl⟩ | ⟨a, rfl, h⟩)
    · rfl
    · rw [pure_bind]
      exact h

/-- What an execution returns, if it does. -/
def returned (e : Exec α) : Option α := e.run.bind Except.toOption

@[simp] theorem returned_pure (a : α) : (pure a : Exec α).returned = some a := rfl

theorem eq_pure_of_returned {e : Exec α} {a : α} (h : e.returned = some a) : e = pure a := by
  obtain ⟨r, hr, ha⟩ := Option.bind_eq_some_iff.mp h
  match r, ha with
  | .ok b, ha => exact hr.trans (congrArg (fun c => some (Except.ok c)) (Option.some.inj ha))

end Exec

/-! ### Integers -/

/-- The greatest value of an `int`. -/
def intMax : ℤ := 2147483647

/-- The least value of an `int`. -/
def intMin : ℤ := -2147483648

/-- The value of an expression of type `int`, of which `x` is the mathematical value. -/
def int (x : ℤ) : Exec ℤ := if intMin ≤ x ∧ x ≤ intMax then pure x else throw .overflow

theorem int_eq {x : ℤ} (h : intMin ≤ x) (h' : x ≤ intMax) : int x = pure x := by
  rw [int, if_pos ⟨h, h'⟩]

theorem int_eq_pure {x y : ℤ} : int x = pure y ↔ (intMin ≤ x ∧ x ≤ intMax) ∧ x = y := by
  rw [int]
  split_ifs with h
  · rw [Exec.pure_inj]
    exact (and_iff_right h).symm
  · exact iff_of_false (fun hp => Exec.pure_ne_throw _ _ hp.symm) fun hp => h hp.1

/-- The `int` to which a size, of type `size_t`, is converted. -/
def intOfSize (n : ℕ) : ℤ := Int.bmod n (2 ^ 32)

/-- A conversion that takes off multiples of `m` does not make a number greater. -/
theorem bmod_le (x m : ℕ) : Int.bmod x m ≤ x := by
  have hmod : (x : ℤ) % m ≤ x := by exact_mod_cast Nat.mod_le x m
  rw [Int.bmod_def]
  split_ifs
  · exact hmod
  · omega

/-- What the conversion takes off is at least `m`, if it is anything. -/
theorem bmod_eq_or (x m : ℕ) : Int.bmod x m = x ∨ Int.bmod x m + m ≤ x := by
  have hmod : (x : ℤ) % m = x ∨ (x : ℤ) % m + m ≤ x := by
    rcases Nat.lt_or_ge x m with hlt | hge
    · exact .inl (by exact_mod_cast Nat.mod_eq_of_lt hlt)
    · have hle : x % m + m ≤ x := by
        rw [Nat.mod_eq_sub_mod hge]
        exact Nat.add_le_of_le_sub hge (Nat.mod_le _ _)
      exact .inr (by exact_mod_cast hle)
  rw [Int.bmod_def]
  split_ifs <;> omega

theorem intOfSize_le (n : ℕ) : intOfSize n ≤ n := bmod_le n _

theorem intOfSize_le_intMax (n : ℕ) : intOfSize n ≤ intMax := by
  have hlt := Int.bmod_lt (x := n) (m := 2 ^ 32) (by norm_num)
  exact Int.le_of_lt_add_one (hlt.trans_eq (by decide))

/-- A size that is an `int` is converted to itself. -/
theorem intOfSize_eq {n : ℕ} (h : (n : ℤ) ≤ intMax) : intOfSize n = n := by
  rw [intMax] at h
  exact Int.bmod_eq_of_le (by omega) (by omega)

/-- A size that is not converted to itself loses a multiple of 2^32. -/
theorem intOfSize_eq_or (n : ℕ) : intOfSize n = n ∨ intOfSize n + (2 ^ 32 : ℕ) ≤ n :=
  bmod_eq_or n _

/-! How many elements a loop up to a converted size looks at. -/

theorem toNat_intOfSize_le (n : ℕ) : (intOfSize n).toNat ≤ n := by
  have hle := intOfSize_le n
  omega

theorem toNat_intOfSize_le_intMax (n : ℕ) : ((intOfSize n).toNat : ℤ) ≤ intMax := by
  have hle := intOfSize_le_intMax n
  have hpos : (0 : ℤ) ≤ intMax := by decide
  omega

theorem toNat_intOfSize {n : ℕ} (h : (n : ℤ) ≤ intMax) : (intOfSize n).toNat = n := by
  rw [intOfSize_eq h, Int.toNat_natCast]

/-- **An arithmetic**: what evaluates to its mathematical value are the expressions whose value
fits. What is not negative and less than a value that fits does as well. -/
structure Arithmetic (arith : ℤ → Exec ℤ) (fits : ℤ → Prop) : Prop where
  eq_pure : ∀ x y, arith x = pure y ↔ fits x ∧ x = y
  mono : ∀ x y, 0 ≤ x → x ≤ y → fits y → fits x

/-- The arithmetic of an `int`. -/
theorem arithmetic_int : Arithmetic int fun x => intMin ≤ x ∧ x ≤ intMax where
  eq_pure := fun _ _ => int_eq_pure
  mono := fun x y hx hxy hy => ⟨(show intMin ≤ 0 by decide).trans hx, hxy.trans hy.2⟩

/-- The arithmetic without bounds. -/
theorem arithmetic_pure : Arithmetic pure fun _ => True where
  eq_pure := fun x y => by rw [Exec.pure_inj, true_and]
  mono := fun _ _ _ _ _ => trivial

theorem Arithmetic.eq {arith : ℤ → Exec ℤ} {fits : ℤ → Prop} (h : Arithmetic arith fits) {x : ℤ}
    (hx : fits x) : arith x = pure x := (h.eq_pure x x).mpr ⟨hx, rfl⟩

/-! ### Pointers and memory -/

/-- An address of the heap. -/
abbrev Addr := ℕ

/-- A pointer: null, or an address. -/
abbrev Ptr := Option Addr

/-- The heap of the objects of one class, defined at the live ones. -/
abbrev Mem (ν : Type) := Addr → Option ν

namespace Mem

variable {ν δ : Type}

/-- `*p`, read. -/
def read (m : Mem ν) : Ptr → Exec ν
  | none => throw .nullDeref
  | some a => match m a with
    | none => throw .dangling
    | some n => pure n

/-- The heap after the object at `a` has become `n`. -/
def set (m : Mem ν) (a : Addr) (n : ν) : Mem ν := Function.update m a (some n)

/-- The heap after the object at `a` has been deleted. -/
def clear (m : Mem ν) (a : Addr) : Mem ν := Function.update m a none

/-- `*p`, updated by `f`: the write of a field. -/
def modify (m : Mem ν) (p : Ptr) (f : ν → ν) : Exec (Mem ν) :=
  match p with
  | none => throw .nullDeref
  | some a => match m a with
    | none => throw .dangling
    | some n => pure (m.set a (f n))

/-- `delete p`: nothing at the null pointer, and a fault at an object already
gone. -/
def delete (m : Mem ν) : Ptr → Exec (Mem ν)
  | none => pure m
  | some a => match m a with
    | none => throw .dangling
    | some _ => pure (m.clear a)

@[simp] theorem set_self (m : Mem ν) (a : Addr) (n : ν) : m.set a n a = some n := by
  simp [set]

theorem set_of_ne (m : Mem ν) {a b : Addr} (n : ν) (h : b ≠ a) : m.set a n b = m b := by
  simp [set, h]

/-- Of two objects at one address the later one stays. -/
@[simp] theorem set_set (m : Mem ν) (a : Addr) (n n' : ν) : (m.set a n).set a n' = m.set a n' :=
  Function.update_idem _ _ _

theorem set_eq_self {m : Mem ν} {a : Addr} {n : ν} (h : m a = some n) : m.set a n = m :=
  Function.update_eq_self_iff.mpr h.symm

@[simp] theorem clear_self (m : Mem ν) (a : Addr) : m.clear a a = none := by
  simp [clear]

theorem clear_of_ne (m : Mem ν) {a b : Addr} (h : b ≠ a) : m.clear a b = m b := by
  simp [clear, h]

theorem read_some {m : Mem ν} {a : Addr} {n : ν} (h : m a = some n) :
    m.read (some a) = pure n := by
  simp only [read, h]

/-- A read that returns has found the object. -/
theorem eq_some_of_read {m : Mem ν} {a : Addr} {n : ν} (h : m.read (some a) = pure n) :
    m a = some n := by
  cases hm : m a with
  | none =>
    simp only [read, hm] at h
    exact absurd h.symm (Exec.pure_ne_throw _ _)
  | some n' => rw [Exec.pure_unique (read_some hm) h]

theorem modify_some {m : Mem ν} {a : Addr} {n : ν} (h : m a = some n) (f : ν → ν) :
    m.modify (some a) f = pure (m.set a (f n)) := by
  simp only [modify, h]

theorem delete_some {m : Mem ν} {a : Addr} {n : ν} (h : m a = some n) :
    m.delete (some a) = pure (m.clear a) := by
  simp only [delete, h]

/-- A field that a write leaves alone keeps its value at every address. -/
theorem map_set {m : Mem ν} {a : Addr} {n n' : ν} (h : m a = some n) {f : ν → δ}
    (hf : f n' = f n) (b : Addr) : (m.set a n' b).map f = (m b).map f := by
  by_cases hb : b = a
  · subst hb
    rw [set_self, h, Option.map_some, Option.map_some, hf]
  · rw [set_of_ne m n' hb]

end Mem

/-- A pointer to a live object: what a program may read and write through. -/
def Alive {ν : Type} (m : Mem ν) (p : Ptr) : Prop := ∃ a n, p = some a ∧ m a = some n

theorem alive_some {ν : Type} {m : Mem ν} {a : Addr} {n : ν} (hn : m a = some n) :
    Alive m (some a) := ⟨a, n, rfl, hn⟩

/-! ### Arrays -/

/-- An array on the heap: its elements, and how many there are. -/
structure Arr (α : Type) where
  data : ℕ → α
  size : ℕ

attribute [ext] Arr

namespace Arr

variable {α : Type}

/-- `new T[n]`, with every element set to `x`. -/
def fill (n : ℕ) (x : α) : Arr α where
  data := fun _ => x
  size := n

/-- `a[i]`, read. -/
def get (a : Arr α) (i : ℕ) : Exec α := if i < a.size then pure (a.data i) else throw .outOfRange

/-- `a[i] = x`. -/
def put (a : Arr α) (i : ℕ) (x : α) : Exec (Arr α) :=
  if i < a.size then pure { a with data := Function.update a.data i x } else throw .outOfRange

/-- `for (int i = 0; i < n; ++i) dst[i] = src[i]`. -/
def copy (src dst : Arr α) : ℕ → Exec (Arr α)
  | 0 => pure dst
  | n + 1 => do
    let d ← copy src dst n
    let x ← src.get n
    d.put n x

/-- `a[i]` with an index of type `int`, read. -/
def getInt (a : Arr α) (i : ℤ) : Exec α := if 0 ≤ i then a.get i.toNat else throw .outOfRange

/-- `a[i] = x` with an index of type `int`. -/
def putInt (a : Arr α) (i : ℤ) (x : α) : Exec (Arr α) :=
  if 0 ≤ i then a.put i.toNat x else throw .outOfRange

/-- `a.push_back(x)`, of a `std::vector`. -/
def pushBack (a : Arr α) (x : α) : Arr α where
  data := Function.update a.data a.size x
  size := a.size + 1

/-- `a.pop_back()`, of a `std::vector`. -/
def popBack (a : Arr α) : Exec (Arr α) :=
  if 0 < a.size then pure { a with size := a.size - 1 } else throw .outOfRange

/-- The elements of an array, in order. -/
def toList (a : Arr α) : List α := (List.range a.size).map a.data

variable {a src dst : Arr α} {i n : ℕ}

@[simp] theorem length_toList (a : Arr α) : a.toList.length = a.size := by
  rw [toList, List.length_map, List.length_range]

theorem mem_toList (h : i < a.size) : a.data i ∈ a.toList :=
  List.mem_map_of_mem (List.mem_range.mpr h)

theorem get_eq (h : i < a.size) : a.get i = pure (a.data i) := by
  rw [get, if_pos h]

theorem put_eq (h : i < a.size) (x : α) :
    a.put i x = pure { a with data := Function.update a.data i x } := by
  rw [put, if_pos h]

theorem getInt_eq (h : i < a.size) : a.getInt i = pure (a.data i) := by
  rw [getInt, if_pos (Int.natCast_nonneg i), Int.toNat_natCast, get_eq h]

theorem putInt_eq (h : i < a.size) (x : α) :
    a.putInt i x = pure { a with data := Function.update a.data i x } := by
  rw [putInt, if_pos (Int.natCast_nonneg i), Int.toNat_natCast, put_eq h]

theorem popBack_eq (h : a.size = n + 1) : a.popBack = pure { a with size := n } := by
  rw [popBack, if_pos (h ▸ Nat.succ_pos n), h, Nat.add_sub_cancel]

theorem copy_eq (hs : n ≤ src.size) (hd : n ≤ dst.size) :
    copy src dst n =
      pure { dst with data := fun i => if i < n then src.data i else dst.data i } := by
  induction n with
  | zero => rfl
  | succ n ih =>
    rw [copy, ih (by omega) (by omega), pure_bind, get_eq (by omega), pure_bind,
      put, if_pos (show n < dst.size by omega)]
    refine congrArg pure (Arr.ext ?_ rfl)
    funext i
    dsimp only
    by_cases hi : i = n
    · rw [hi, Function.update_self, if_pos (Nat.lt_succ_self n)]
    · rw [Function.update_of_ne hi]
      simp only [show i < n + 1 ↔ i < n by omega]

end Arr

/-! ### Vectors -/

section Vectors

variable {α : Type} {v : List α} {x : α}

/-- `v[i]`, of a `std::vector` or a string, read. -/
def nth (v : List α) (i : ℤ) : Exec α :=
  match v[i.toNat]? with
  | none => throw .outOfRange
  | some x => if 0 ≤ i then pure x else throw .outOfRange

theorem nth_eq {i : ℕ} (h : v[i]? = some x) : nth v i = pure x := by
  simp only [nth, Int.toNat_natCast, h, Int.natCast_nonneg, if_true]

/-- Reading a vector returns exactly within its bounds. -/
theorem nth_eq_pure {i : ℤ} : nth v i = pure x ↔ 0 ≤ i ∧ v[i.toNat]? = some x := by
  cases h : v[i.toNat]? with
  | none =>
    simp only [nth, h]
    exact iff_of_false (fun hp => Exec.pure_ne_throw _ _ hp.symm) fun hp => nomatch hp.2
  | some y =>
    simp only [nth, h, Option.some.injEq]
    split_ifs with hi
    · rw [Exec.pure_inj, and_iff_right hi]
    · exact iff_of_false (fun hp => Exec.pure_ne_throw _ _ hp.symm) fun hp => hi hp.1

/-- Reading a vector within its bounds, with a value for what is beyond them. -/
theorem nth_getD {i : ℕ} (h : i < v.length) (d : α) : nth v i = pure (v.getD i d) := by
  refine nth_eq ?_
  rw [List.getElem?_eq_getElem h, List.getD_eq_getElem _ _ h]

/-- `v[i] = x`. -/
def setNth (v : List α) (i : ℤ) (x : α) : Exec (List α) :=
  if 0 ≤ i ∧ i < v.length then pure (v.set i.toNat x) else throw .outOfRange

theorem setNth_eq {i : ℕ} (h : i < v.length) (x : α) : setNth v i x = pure (v.set i x) := by
  rw [setNth, if_pos ⟨Int.natCast_nonneg i, Int.ofNat_lt.mpr h⟩, Int.toNat_natCast]

end Vectors

end Cpp

end Candcpp
