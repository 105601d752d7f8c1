import Candcpp.Cpp.Exec

/-!
# Buffers on the heap

Arrays that are allocated with `new`, and read, written and copied through pointers. A
`Candcpp.Cpp.Block` is what `new` yields: an address, and the elements that happen to be there.

A loop over two buffers is executed element by element, so that an access outside a buffer or
through a dangling pointer is a fault at that element, and so is a counter that leaves `int`; where
there is none, the whole loop is one write (`Candcpp.Cpp.Mem.copyTo_eq`).
-/

namespace Candcpp

namespace Cpp

/-- What `new T[n]` yields: an address, and elements that nobody has written. -/
structure Block (α : Type) where
  addr : Addr
  junk : ℕ → α

/-- What a new buffer holds when the first `n` elements of `src` have been copied to it. -/
def Block.copied {α : Type} (b : Block α) (src : Arr α) (n size : ℕ) : Arr α where
  data := fun i => if i < n then src.data i else b.junk i
  size := size

theorem Block.map_copied {α : Type} (b : Block α) (src : Arr α) (n size : ℕ) :
    (List.range n).map (b.copied src n size).data = (List.range n).map src.data :=
  List.map_congr_left fun _ hi => if_pos (List.mem_range.mp hi)

namespace Mem

variable {α : Type}

/-- The heap after `new T[n]`. -/
def alloc (m : Mem (Arr α)) (b : Block α) (n : ℕ) : Mem (Arr α) :=
  m.set b.addr { data := b.junk, size := n }

/-- `p[i]`, read. -/
def getAt (m : Mem (Arr α)) (p : Ptr) (i : ℤ) : Exec α := do
  let a ← m.read p
  a.getInt i

/-- `p[i] = x`. -/
def putAt (m : Mem (Arr α)) (p : Ptr) (i : ℤ) (x : α) : Exec (Mem (Arr α)) := do
  let a ← m.read p
  let a ← a.putInt i x
  m.modify p fun _ => a

/-- `for (int i = off; i < off + n; ++i) dst[i] = src[i - off]`. -/
def copyTo (m : Mem (Arr α)) (src dst : Ptr) (off : ℕ) : ℕ → Exec (Mem (Arr α))
  | 0 => pure m
  | n + 1 => do
    let m ← copyTo m src dst off n
    let x ← m.getAt src n
    let m ← m.putAt dst (off + n : ℕ) x
    let _ ← int (off + n + 1 : ℕ)
    pure m

/-- `for (int i = 0; i < n; ++i) p[i] = x`. -/
def fillTo (m : Mem (Arr α)) (p : Ptr) (x : α) : ℕ → Exec (Mem (Arr α))
  | 0 => pure m
  | n + 1 => do
    let m ← fillTo m p x n
    let m ← m.putAt p n x
    let _ ← int (n + 1 : ℕ)
    pure m

variable {m m' : Mem (Arr α)} {a b : Addr} {arr src dst : Arr α} {i n off : ℕ} {x : α}

theorem getAt_eq (h : m a = some arr) (hi : i < arr.size) :
    m.getAt (some a) i = pure (arr.data i) := by
  rw [getAt, read_some h, pure_bind, Arr.getInt_eq hi]

theorem putAt_eq (h : m a = some arr) (hi : i < arr.size) (x : α) :
    m.putAt (some a) i x = pure (m.set a { arr with data := Function.update arr.data i x }) := by
  rw [putAt, read_some h, pure_bind, Arr.putInt_eq hi, pure_bind, modify_some h]

/-- **A write that returns** was within the bounds. -/
theorem putAt_eq_pure {k : ℤ} (h : m a = some arr) (hr : m.putAt (some a) k x = pure m') :
    0 ≤ k ∧ k.toNat < arr.size ∧
      m' = m.set a { arr with data := Function.update arr.data k.toNat x } := by
  have hk : 0 ≤ k := by
    by_contra hk
    rw [putAt, read_some h, pure_bind, Arr.putInt, if_neg hk] at hr
    exact Exec.pure_ne_throw _ _ hr.symm
  obtain ⟨i, rfl⟩ := Int.eq_ofNat_of_zero_le hk
  have hi : i < arr.size := by
    by_contra hi
    rw [putAt, read_some h, pure_bind, Arr.putInt, if_pos hk, Arr.put, Int.toNat_natCast,
      if_neg hi] at hr
    exact Exec.pure_ne_throw _ _ hr.symm
  rw [Int.toNat_natCast]
  exact ⟨hk, hi, Exec.pure_unique hr (putAt_eq h hi x)⟩

/-- An array of which a loop has changed nothing. -/
theorem set_data_eq_self (h : m a = some arr) {data : ℕ → α} (hd : ∀ i, data i = arr.data i) :
    m.set a { arr with data := data } = m := by
  rw [show data = arr.data from funext hd]
  exact set_eq_self h

/-- The length of a buffer that a loop can go through with a counter of type `int`. -/
theorem int_natCast {n : ℕ} (h : (n : ℤ) ≤ intMax) : int n = pure (n : ℤ) :=
  int_eq (le_trans (by decide) (Int.natCast_nonneg n)) h

/-- **The loop copies** what it says. -/
theorem copyTo_eq (hs : m a = some src) (hd : m b = some dst) (hne : a ≠ b) (hn : n ≤ src.size)
    (hoff : off + n ≤ dst.size) (hint : ((off + n : ℕ) : ℤ) ≤ intMax) :
    m.copyTo (some a) (some b) off n = pure (m.set b { dst with
      data := fun i => if off ≤ i ∧ i < off + n then src.data (i - off) else dst.data i }) := by
  induction n with
  | zero =>
    rw [copyTo, set_data_eq_self hd fun i => if_neg (by omega)]
  | succ n ih =>
    have hput := putAt_eq (i := off + n) (set_self m b (Arr.mk (fun i =>
      if off ≤ i ∧ i < off + n then src.data (i - off) else dst.data i) dst.size))
      (by dsimp only; omega)
    rw [copyTo, ih (by omega) (by omega) (by omega), pure_bind,
      getAt_eq ((set_of_ne m _ hne).trans hs) (by omega), pure_bind, hput, pure_bind,
      int_natCast (n := off + n + 1) hint, pure_bind, set_set]
    refine congrArg (fun d => pure (m.set b d)) (Arr.ext ?_ rfl)
    funext i
    dsimp only
    by_cases hi : i = off + n
    · subst hi
      rw [Function.update_self, if_pos (by omega), Nat.add_sub_cancel_left]
    · rw [Function.update_of_ne hi]
      exact if_congr (by omega) rfl rfl

/-- **A copy in a new buffer**. -/
theorem copyTo_alloc {block : Block α} {size : ℕ} (hs : m a = some src)
    (hfree : m block.addr = none) (hn : n ≤ src.size) (hsize : n ≤ size)
    (hint : (n : ℤ) ≤ intMax) :
    (m.alloc block size).copyTo (some a) (some block.addr) 0 n =
      pure (m.set block.addr (block.copied src n size)) := by
  have hne : a ≠ block.addr := by
    rintro rfl
    exact nomatch hs.symm.trans hfree
  rw [alloc, copyTo_eq ((set_of_ne m _ hne).trans hs) (set_self m block.addr _) hne hn
    (by rwa [Nat.zero_add]) (by rwa [Nat.zero_add]), set_set]
  simp [Block.copied]

/-- The counter of a loop that returns was the value of an `int` throughout. -/
theorem le_intMax_of_copyTo {p q : Ptr} (hn : 0 < n) (h : m.copyTo p q off n = pure m') :
    ((off + n : ℕ) : ℤ) ≤ intMax := by
  obtain ⟨n, rfl⟩ := Nat.exists_eq_succ_of_ne_zero (Nat.ne_of_gt hn)
  obtain ⟨m₁, -, h⟩ := Exec.bind_eq_pure.mp h
  obtain ⟨x, -, h⟩ := Exec.bind_eq_pure.mp h
  obtain ⟨m₂, -, h⟩ := Exec.bind_eq_pure.mp h
  obtain ⟨k, hk, -⟩ := Exec.bind_eq_pure.mp h
  exact (int_eq_pure.mp hk).1.2

theorem fillTo_eq (hd : m b = some dst) (hn : n ≤ dst.size) (hint : (n : ℤ) ≤ intMax) :
    m.fillTo (some b) x n = pure (m.set b { dst with
      data := fun i => if i < n then x else dst.data i }) := by
  induction n with
  | zero => rw [fillTo, set_data_eq_self hd fun i => if_neg (Nat.not_lt_zero i)]
  | succ n ih =>
    have hput := putAt_eq (i := n) (set_self m b (Arr.mk (fun i =>
      if i < n then x else dst.data i) dst.size)) (by dsimp only; omega)
    rw [fillTo, ih (by omega) (by omega), pure_bind, hput, pure_bind, int_natCast hint, pure_bind,
      set_set]
    refine congrArg (fun d => pure (m.set b d)) (Arr.ext ?_ rfl)
    funext i
    dsimp only
    by_cases hi : i = n
    · subst hi
      rw [Function.update_self, if_pos (Nat.lt_succ_self i)]
    · rw [Function.update_of_ne hi]
      exact if_congr (by omega) rfl rfl

/-! ### What a program that returns has written -/

/-- The heap `m'` is `m`, except for the elements of the buffer at `a`. -/
def Overwrites (m : Mem (Arr α)) (a : Addr) (m' : Mem (Arr α)) : Prop :=
  ∃ arr arr', m a = some arr ∧ m' = m.set a arr' ∧ arr'.size = arr.size

theorem Overwrites.refl (h : m a = some arr) : m.Overwrites a m :=
  ⟨arr, arr, h, (set_eq_self h).symm, rfl⟩

theorem Overwrites.trans {m'' : Mem (Arr α)} (h : m.Overwrites a m') (h' : m'.Overwrites a m'') :
    m.Overwrites a m'' := by
  obtain ⟨arr, arr', harr, rfl, hsize⟩ := h
  obtain ⟨arr₁, arr'', harr₁, rfl, hsize'⟩ := h'
  obtain rfl : arr' = arr₁ := Option.some.inj ((set_self m a arr').symm.trans harr₁)
  exact ⟨arr, arr'', harr, set_set .., hsize'.trans hsize⟩

/-- The buffer is still there. -/
theorem Overwrites.alive (h : m.Overwrites a m') : ∃ arr, m' a = some arr := by
  obtain ⟨arr, arr', -, rfl, -⟩ := h
  exact ⟨arr', set_self m a arr'⟩

theorem overwrites_of_putAt {k : ℤ} (h : m a = some arr)
    (hr : m.putAt (some a) k x = pure m') : m.Overwrites a m' := by
  obtain ⟨-, -, rfl⟩ := putAt_eq_pure h hr
  exact ⟨arr, _, h, rfl, rfl⟩

theorem overwrites_of_copyTo {p : Ptr} (h : m b = some dst)
    (hr : m.copyTo p (some b) off n = pure m') : m.Overwrites b m' := by
  induction n generalizing m' with
  | zero =>
    obtain rfl := Exec.pure_inj.mp hr
    exact .refl h
  | succ n ih =>
    obtain ⟨m₁, h₁, hr⟩ := Exec.bind_eq_pure.mp hr
    obtain ⟨y, -, hr⟩ := Exec.bind_eq_pure.mp hr
    obtain ⟨m₂, h₂, hr⟩ := Exec.bind_eq_pure.mp hr
    obtain ⟨k, -, hr⟩ := Exec.bind_eq_pure.mp hr
    obtain rfl := Exec.pure_inj.mp hr
    obtain ⟨arr, harr⟩ := (ih h₁).alive
    exact (ih h₁).trans (overwrites_of_putAt harr h₂)

/-- A new buffer is as long as it was asked for, whatever a loop has copied to it. -/
theorem eq_set_of_copyTo {block : Block α} {size : ℕ} {p : Ptr}
    (hr : (m.alloc block size).copyTo p (some block.addr) off n = pure m') :
    ∃ arr, arr.size = size ∧ m' = m.set block.addr arr := by
  have hnew : m.alloc block size block.addr = some ⟨block.junk, size⟩ := set_self m block.addr _
  obtain ⟨arr, arr', harr, rfl, hsize⟩ := overwrites_of_copyTo hnew hr
  obtain rfl := Option.some.inj (hnew.symm.trans harr)
  exact ⟨arr', hsize, set_set ..⟩

end Mem

end Cpp

end Candcpp
