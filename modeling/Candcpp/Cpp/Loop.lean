import Candcpp.Cpp.Exec

/-!
# Loops that call the system until they break

A loop `while (true)` that makes a system call in each turn, and goes on or leaves by what the call
returns. What the calls return is a stream of outcomes, one for each turn; a turn of the loop is a
function of the state and of the outcome (`Candcpp.Cpp.Turn`).

`Candcpp.Cpp.drain` is the loop. Where it is after `n` turns is a relation
(`Candcpp.Cpp.Drained`), and **it returns what the first turn that leaves returns**
(`Candcpp.Cpp.drain_eq_pure`): so whether it returns at all is a question about the stream.

A loop over the elements of a list, by contrast, always ends; it is a fold, and
`Candcpp.Cpp.foldlM_eq` is its rule.
-/

namespace Candcpp

namespace Cpp

/-- How a turn of a loop ends. -/
inductive Turn (σ ρ : Type) where
  /-- The loop goes on in a state. -/
  | again (s : σ) : Turn σ ρ
  /-- The loop is left. -/
  | leave (r : ρ) : Turn σ ρ

variable {σ ρ ω : Type}

/-- **The loop**, from the turn `i` on. -/
def drain (turn : σ → ω → Exec (Turn σ ρ)) (outcomes : ℕ → ω) (s : σ) (i : ℕ) : Result ρ :=
  show Exec ρ from do
    let +zeta drain : type_of% drain := by apply drain
    match ← turn s (outcomes i) with
    | .again s => (drain turn outcomes s (i + 1) : Exec ρ)
    | .leave r => pure r
partial_fixpoint

/-- **Where the loop is** after `n` turns that have gone on. -/
inductive Drained (turn : σ → ω → Exec (Turn σ ρ)) (outcomes : ℕ → ω) (s : σ) : ℕ → σ → Prop
  /-- Before its first turn. -/
  | start : Drained turn outcomes s 0 s
  /-- After one more turn. -/
  | again {n : ℕ} {t t' : σ} (h : Drained turn outcomes s n t)
      (ht : turn t (outcomes n) = pure (.again t')) : Drained turn outcomes s (n + 1) t'

variable {turn : σ → ω → Exec (Turn σ ρ)} {outcomes : ℕ → ω} {s t t' : σ} {r : ρ} {n m : ℕ}

theorem drain_again (h : turn s (outcomes n) = pure (.again t)) :
    drain turn outcomes s n = drain turn outcomes t (n + 1) := by
  rw [drain]
  show (turn s (outcomes n) >>= _) = _
  rw [h, pure_bind]

theorem drain_leave (h : turn s (outcomes n) = pure (.leave r)) :
    drain turn outcomes s n = (pure r : Exec ρ) := by
  rw [drain]
  show (turn s (outcomes n) >>= _) = _
  rw [h, pure_bind]

theorem Drained.drain_eq (h : Drained turn outcomes s n t) :
    drain turn outcomes s 0 = drain turn outcomes t n := by
  induction h with
  | start => rfl
  | again _ ht ih => exact ih.trans (drain_again ht)

/-- Each turn of the loop is made in one state only. -/
theorem Drained.unique (h : Drained turn outcomes s n t) (h' : Drained turn outcomes s n t') :
    t = t' := by
  induction h generalizing t' with
  | start => cases h' with | start => rfl
  | again _ ht ih =>
    cases h' with
    | again h' ht' =>
      obtain rfl := ih h'
      exact Turn.again.inj (Exec.pure_unique ht ht')

theorem drain_throw {x : Fault} (h : turn s (outcomes n) = throw x) :
    drain turn outcomes s n = (throw x : Exec ρ) := by
  rw [drain]
  show (turn s (outcomes n) >>= _) = _
  rw [h]
  rfl

/-- A loop that ends has come to a turn that leaves it, or that stops at a fault. -/
theorem exists_last_turn {q : Except Fault ρ} (h : drain turn outcomes s 0 = some q) :
    ∃ n t, Drained turn outcomes s n t ∧
      ((∃ r, turn t (outcomes n) = pure (.leave r) ∧ q = .ok r) ∨
        ∃ x, turn t (outcomes n) = throw x ∧ q = .error x) := by
  have hloop : ∀ u i q, drain turn outcomes u i = some q → Drained turn outcomes s i u →
      ∃ n t, Drained turn outcomes s n t ∧
        ((∃ r, turn t (outcomes n) = pure (.leave r) ∧ q = .ok r) ∨
          ∃ x, turn t (outcomes n) = throw x ∧ q = .error x) := by
    refine drain.partial_correctness turn outcomes _ ?_
    intro f ih u i q hq hd
    rcases Exec.bind_eq_some.mp hq with ⟨x, hturn, rfl⟩ | ⟨next, hturn, hq⟩
    · exact ⟨i, u, hd, .inr ⟨x, hturn, rfl⟩⟩
    · cases next with
      | again u' => exact ih _ _ _ hq (hd.again hturn)
      | leave r => exact ⟨i, u, hd, .inl ⟨r, hturn, (Option.some.inj hq).symm⟩⟩
  exact hloop s 0 q h .start

/-- **The loop returns** what the first turn that leaves it returns. -/
theorem drain_eq_pure : drain turn outcomes s 0 = (pure r : Exec ρ) ↔
    ∃ n t, Drained turn outcomes s n t ∧ turn t (outcomes n) = pure (.leave r) := by
  constructor
  · intro h
    obtain ⟨n, t, hd, ⟨r', ht, hr⟩ | ⟨x, -, hx⟩⟩ := exists_last_turn h
    · cases hr
      exact ⟨n, t, hd, ht⟩
    · cases hx
  · rintro ⟨n, t, hd, ht⟩
    exact hd.drain_eq.trans (drain_leave ht)

/-- **The loop stops at a fault** if one of its turns does. -/
theorem drain_eq_throw {x : Fault} : drain turn outcomes s 0 = (throw x : Exec ρ) ↔
    ∃ n t, Drained turn outcomes s n t ∧ turn t (outcomes n) = throw x := by
  constructor
  · intro h
    obtain ⟨n, t, hd, ⟨r', -, hr⟩ | ⟨y, ht, hy⟩⟩ := exists_last_turn h
    · cases hr
    · cases hy
      exact ⟨n, t, hd, ht⟩
  · rintro ⟨n, t, hd, ht⟩
    exact hd.drain_eq.trans (drain_throw ht)

/-- **Invariants of the loop**: what holds at the start and is kept by every turn that goes on. -/
theorem Drained.invariant {I : ℕ → σ → Prop} (h : Drained turn outcomes s n t) (h0 : I 0 s)
    (hstep : ∀ n t t', I n t → turn t (outcomes n) = pure (.again t') → I (n + 1) t') : I n t := by
  induction h with
  | start => exact h0
  | again _ ht ih => exact hstep _ _ _ ih ht

/-- **The loop goes on** as long as its turns do. -/
theorem Drained.of_forall (h : ∀ m < n, ∀ t, ∃ t', turn t (outcomes m) = pure (.again t')) :
    ∃ t, Drained turn outcomes s n t := by
  induction n with
  | zero => exact ⟨s, .start⟩
  | succ n ih =>
    obtain ⟨t, ht⟩ := ih fun m hm => h m (hm.trans (Nat.lt_succ_self n))
    obtain ⟨t', ht'⟩ := h n (Nat.lt_succ_self n) t
    exact ⟨t', ht.again ht'⟩

/-- Of a stream with an outcome of some kind, the first one of that kind. -/
theorem exists_first_outcome {stops : ω → Prop} (h : ∃ n, stops (outcomes n)) :
    ∃ n, stops (outcomes n) ∧ ∀ m < n, ¬ stops (outcomes m) := by
  classical
  exact ⟨Nat.find h, Nat.find_spec h, fun _ hm => Nat.find_min h hm⟩

/-! ### Loops over a list -/

/-- **The rule of a loop** over the elements of a list: `I` holds of those that have been visited
and of the state, at the start and after every turn. -/
theorem foldlM_eq {f : σ → ω → Exec σ} {l : List ω} (I : List ω → σ → Prop) (h0 : I [] s)
    (hstep : ∀ pre x t, pre ++ [x] <+: l → I pre t → ∃ t', f t x = pure t' ∧ I (pre ++ [x]) t') :
    ∃ t, l.foldlM f s = pure t ∧ I l t := by
  have hrest : ∀ post pre t, pre ++ post = l → I pre t →
      ∃ t', post.foldlM f t = pure t' ∧ I l t' := by
    intro post
    induction post with
    | nil =>
      rintro pre t rfl ht
      exact ⟨t, rfl, (List.append_nil pre).symm ▸ ht⟩
    | cons x post ih =>
      rintro pre t hl ht
      rw [List.append_cons] at hl
      obtain ⟨t', hf, ht'⟩ := hstep pre x t ⟨post, hl⟩ ht
      obtain ⟨t'', hfold, ht''⟩ := ih (pre ++ [x]) t' hl ht'
      exact ⟨t'', by rw [List.foldlM_cons, hf, pure_bind, hfold], ht''⟩
  exact hrest l [] s rfl h0

/-- **The rule of a loop** over the numbers below `n`: `I i` holds before the turn for `i`. -/
theorem foldlM_range_eq {f : σ → ℕ → Exec σ} {n : ℕ} (I : ℕ → σ → Prop) (h0 : I 0 s)
    (hstep : ∀ i < n, ∀ t, I i t → ∃ t', f t i = pure t' ∧ I (i + 1) t') :
    ∃ t, (List.range n).foldlM f s = pure t ∧ I n t := by
  induction n with
  | zero => exact ⟨s, rfl, h0⟩
  | succ n ih =>
    obtain ⟨t, hrun, ht⟩ := ih fun i hi => hstep i (hi.trans (Nat.lt_succ_self n))
    obtain ⟨t', hf, ht'⟩ := hstep n (Nat.lt_succ_self n) t ht
    refine ⟨t', ?_, ht'⟩
    rw [List.range_succ, List.foldlM_append, hrun, pure_bind, List.foldlM_cons, hf, pure_bind,
      List.foldlM_nil]

/-- **A loop over the positions** of a vector that does with each of them what is to be done with
the element there is a loop over the elements. -/
theorem foldlM_range_length {α : Type} {v : List α} {f : σ → ℕ → Exec σ} {g : σ → α → Exec σ}
    (h : ∀ i x, v[i]? = some x → ∀ t, f t i = g t x) (s : σ) :
    (List.range v.length).foldlM f s = v.foldlM g s := by
  have hrest : ∀ post pre t, pre ++ post = v →
      (List.range' pre.length post.length).foldlM f t = post.foldlM g t := by
    intro post
    induction post with
    | nil => exact fun _ _ _ => rfl
    | cons x post ih =>
      rintro pre t hv
      have hx : v[pre.length]? = some x := by
        rw [← hv, List.getElem?_append_right le_rfl, Nat.sub_self, List.getElem?_cons_zero]
      rw [List.append_cons] at hv
      have hlen : (pre ++ [x]).length = pre.length + 1 := List.length_append
      rw [List.length_cons, List.range'_succ, List.foldlM_cons, List.foldlM_cons, h _ _ hx]
      refine bind_congr fun t' => ?_
      rw [← hlen]
      exact ih (pre ++ [x]) t' hv
  rw [List.range_eq_range']
  exact hrest v [] s rfl

/-- A loop over the elements of lists, one list after the other. -/
theorem foldlM_flatten {α : Type} (g : σ → α → Exec σ) (ls : List (List α)) (s : σ) :
    ls.foldlM (fun t l => l.foldlM g t) s = ls.flatten.foldlM g s := by
  induction ls generalizing s with
  | nil => rfl
  | cons l ls ih =>
    rw [List.foldlM_cons, List.flatten_cons, List.foldlM_append]
    exact bind_congr fun t => ih t

end Cpp

end Candcpp
