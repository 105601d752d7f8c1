import Candcpp.Cpp.Loop

/-!
# Rows that are some distance apart

The rows of a picture in memory may be longer than the picture is wide: a row of `w` elements begins
every `stride` elements, and what is between two rows does not matter. `Candcpp.Cpp.rowsAt` are the
rows, one after the other, and `Candcpp.Cpp.copyRows` is the loop that copies a picture without gaps
into such an array. **Then the rows are the picture, and what is between them is as before**
(`Candcpp.Cpp.copyRows_eq`).
-/

namespace Candcpp

namespace Cpp

variable {α : Type}

/-- The first `w` elements of each of `h` rows, which are `stride` elements apart. -/
def rowsAt (a : List α) (stride w h : ℕ) : List α :=
  (List.range h).flatMap fun i => (a.drop (i * stride)).take w

/-- The loop over the elements of the row `y`; the picture begins at `off` in `src`. -/
def copyRow (src : List α) (off w stride y : ℕ) (dst : List α) : Exec (List α) :=
  (List.range w).foldlM (fun dst x => do
    let p ← nth src (off + (y * w + x) : ℕ)
    setNth dst (y * stride + x : ℕ) p) dst

/-- The loop over the rows. -/
def copyRows (src : List α) (off w h stride : ℕ) (dst : List α) : Exec (List α) :=
  (List.range h).foldlM (fun dst y => copyRow src off w stride y dst) dst

/-- `n` rows of `w` elements without gaps are a part of the array. -/
theorem rowsAt_self (a : List α) (w n : ℕ) : rowsAt a w w n = a.take (n * w) := by
  induction n with
  | zero => rw [Nat.zero_mul, List.take_zero, rowsAt, List.range_zero, List.flatMap_nil]
  | succ n ih =>
    rw [rowsAt] at ih ⊢
    rw [List.range_succ, List.flatMap_append, ih, List.flatMap_singleton, ← List.take_add,
      Nat.succ_mul]

/-- The rows are those of another array if they have the same elements. -/
theorem rowsAt_congr {a b : List α} {s t w h : ℕ}
    (hab : ∀ i < h, ∀ x < w, a[i * s + x]? = b[i * t + x]?) :
    rowsAt a s w h = rowsAt b t w h := by
  rw [rowsAt, rowsAt, List.flatMap, List.flatMap]
  refine congrArg List.flatten (List.map_congr_left fun i hi => ?_)
  refine List.ext_getElem? fun x => ?_
  rw [List.getElem?_take, List.getElem?_take]
  split_ifs with hx
  · rw [List.getElem?_drop, List.getElem?_drop]
    exact hab i (List.mem_range.mp hi) x hx
  · rfl

variable {src dst : List α} {off w h stride y : ℕ}

/-- **One row** is copied, and nothing else changes. -/
theorem copyRow_eq (hsrc : off + (y * w + w) ≤ src.length)
    (hdst : y * stride + w ≤ dst.length) :
    ∃ dst', copyRow src off w stride y dst = pure dst' ∧ dst'.length = dst.length ∧
      (∀ x < w, dst'[y * stride + x]? = src[off + (y * w + x)]?) ∧
      ∀ k, (∀ x < w, k ≠ y * stride + x) → dst'[k]? = dst[k]? := by
  refine foldlM_range_eq (fun n t => t.length = dst.length ∧
    (∀ x < n, t[y * stride + x]? = src[off + (y * w + x)]?) ∧
    ∀ k, (∀ x < n, k ≠ y * stride + x) → t[k]? = dst[k]?) ⟨rfl, nofun, fun _ _ => rfl⟩ ?_
  rintro n hn t ⟨hlen, hrow, helse⟩
  have hget : src[off + (y * w + n)]? = some src[off + (y * w + n)] :=
    List.getElem?_eq_getElem (by omega)
  refine ⟨t.set (y * stride + n) src[off + (y * w + n)], ?_, ?_, ?_, ?_⟩
  · rw [nth_eq hget, pure_bind, setNth_eq (by omega)]
  · rw [List.length_set, hlen]
  · intro x hx
    rcases Nat.lt_succ_iff_lt_or_eq.mp hx with hlt | rfl
    · rw [List.getElem?_set_ne (by omega)]
      exact hrow x hlt
    · rw [List.getElem?_set_self (by omega), hget]
  · intro k hk
    rw [List.getElem?_set_ne (hk n (Nat.lt_succ_self n)).symm]
    exact helse k fun x hx => hk x (hx.trans (Nat.lt_succ_self n))

/-- Two places in an array whose rows do not overlap. -/
theorem place_inj {i j x x' : ℕ} (hx : x < stride) (hx' : x' < stride)
    (h : i * stride + x = j * stride + x') : i = j := by
  have hdiv : ∀ {k z : ℕ}, z < stride → (k * stride + z) / stride = k := by
    intro k z hz
    rw [Nat.mul_comm, Nat.mul_add_div (by omega), Nat.div_eq_of_lt hz, Nat.add_zero]
  rw [← hdiv (k := i) hx, h, hdiv hx']

/-- **A picture is copied**: its rows are those of the picture, and what is elsewhere is as
before. -/
theorem copyRows_eq (hw : w ≤ stride) (hsrc : off + h * w ≤ src.length)
    (hdst : ∀ i < h, i * stride + w ≤ dst.length) :
    ∃ dst', copyRows src off w h stride dst = pure dst' ∧ dst'.length = dst.length ∧
      rowsAt dst' stride w h = (src.drop off).take (h * w) ∧
      ∀ k, (∀ i < h, ∀ x < w, k ≠ i * stride + x) → dst'[k]? = dst[k]? := by
  have hcopy : ∃ dst', copyRows src off w h stride dst = pure dst' ∧ dst'.length = dst.length ∧
      (∀ i < h, ∀ x < w, dst'[i * stride + x]? = src[off + (i * w + x)]?) ∧
      ∀ k, (∀ i < h, ∀ x < w, k ≠ i * stride + x) → dst'[k]? = dst[k]? := by
    refine foldlM_range_eq (fun n t => t.length = dst.length ∧
      (∀ i < n, ∀ x < w, t[i * stride + x]? = src[off + (i * w + x)]?) ∧
      ∀ k, (∀ i < n, ∀ x < w, k ≠ i * stride + x) → t[k]? = dst[k]?)
      ⟨rfl, nofun, fun _ _ => rfl⟩ ?_
    rintro n hn t ⟨hlen, hrows, helse⟩
    have hle : n * w + w ≤ h * w := by
      rw [← Nat.succ_mul]
      exact Nat.mul_le_mul_right w hn
    obtain ⟨t', hrun, hlen', hrow, helse'⟩ := copyRow_eq
      (show off + (n * w + w) ≤ src.length by omega) ((hdst n hn).trans_eq hlen.symm)
    refine ⟨t', hrun, hlen'.trans hlen, ?_, ?_⟩
    · intro i hi x hx
      rcases Nat.lt_succ_iff_lt_or_eq.mp hi with hlt | rfl
      · rw [helse' _ fun x' hx' heq => hlt.ne (place_inj (by omega) (by omega) heq)]
        exact hrows i hlt x hx
      · exact hrow x hx
    · intro k hk
      rw [helse' k (hk n (Nat.lt_succ_self n))]
      exact helse k fun i hi => hk i (hi.trans (Nat.lt_succ_self n))
  obtain ⟨dst', hrun, hlen, hrows, helse⟩ := hcopy
  refine ⟨dst', hrun, hlen, ?_, helse⟩
  rw [← rowsAt_self]
  refine rowsAt_congr fun i hi x hx => ?_
  rw [hrows i hi x hx, List.getElem?_drop]

/-- **Two loops in one**: a loop that does in each turn what two loops do returns what they
return. -/
theorem foldlM_prod {σ τ ω : Type} {f : σ → ω → Exec σ} {g : τ → ω → Exec τ}
    {both : σ × τ → ω → Exec (σ × τ)} {l : List ω} {s s' : σ} {t t' : τ}
    (hboth : ∀ x ∈ l, ∀ s t s' t', f s x = pure s' → g t x = pure t' →
      both (s, t) x = pure (s', t'))
    (hf : l.foldlM f s = pure s') (hg : l.foldlM g t = pure t') :
    l.foldlM both (s, t) = pure (s', t') := by
  induction l generalizing s t with
  | nil =>
    obtain rfl := Exec.pure_inj.mp hf
    obtain rfl := Exec.pure_inj.mp hg
    rfl
  | cons x l ih =>
    obtain ⟨s₁, hs₁, hf⟩ := Exec.bind_eq_pure.mp hf
    obtain ⟨t₁, ht₁, hg⟩ := Exec.bind_eq_pure.mp hg
    rw [List.foldlM_cons, hboth x List.mem_cons_self _ _ _ _ hs₁ ht₁, pure_bind]
    exact ih (fun y hy => hboth y (List.mem_cons_of_mem x hy)) hf hg

end Cpp

end Candcpp
