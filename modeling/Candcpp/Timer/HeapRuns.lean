import Candcpp.Lts
import Candcpp.Timer.Heap

/-!
# Every run of the time heap

A client of `Candcpp.TimeHeap` makes a heap of a given capacity, empty or from an array of
timers, and then inserts timers, cancels them, pops the earliest one and calls `tick`.
Besides the heap the world records the timers that are *live* by this history –
inserted and not yet popped – and those that have no callback, since they were
cancelled or never had one.

| what is proved of every run | theorem |
|---|---|
| **the heap is ordered and holds the live timers, and a tick fires the due ones** | `Candcpp.HeapWorld.reachable_wellOrdered` |
| **no array is accessed out of its bounds exactly if the capacity is positive** | `Candcpp.HeapWorld.inBounds_iff` |

The second is the condition that the constructors do not check: `resize` doubles a
capacity of `0` to `0`, and `tick` looks at the first element of the array before it
asks whether there is one.
-/

namespace Candcpp

open Cpp BinaryHeap TimeHeap

/-- A heap, the environment of its callbacks, the timers inserted and not yet popped,
and those of them that have no callback. -/
structure HeapWorld (σ : Type) where
  heap : TimeHeap σ
  env : σ
  live : List Addr
  cancelled : List Addr

/-- The operations of a client. -/
inductive HeapOp (σ : Type) where
  /-- A timer is created at the address `p`, and `add_timer`. -/
  | addTimer (p : Addr) (timer : HeapTimer σ) : HeapOp σ
  /-- `del_timer`. -/
  | delTimer (p : Addr) : HeapOp σ
  /-- `pop_timer`, of the timer that `top` shows. -/
  | popTimer : HeapOp σ
  /-- `top`. -/
  | top : HeapOp σ
  /-- `tick`, when the clock reads `cur`. -/
  | tick (cur : ℤ) : HeapOp σ

namespace HeapWorld

variable {σ : Type}

/-- What the client owes the heap: a new timer is not at the address of another one,
and only live timers are cancelled. -/
def Allowed (w : HeapWorld σ) : HeapOp σ → Prop
  | .addTimer p _ => w.heap.mem p = none
  | .delTimer p => p ∈ w.live
  | _ => True

/-- An operation, executed. -/
def exec (w : HeapWorld σ) : HeapOp σ → Exec (HeapWorld σ)
  | .addTimer p timer => do
    let s ← addTimer { w.heap with mem := w.heap.mem.set p timer } (some p)
    let others := w.cancelled.filter (· ≠ p)
    let cancelled := if timer.cbFunc.isSome then others else p :: others
    pure { w with heap := s, live := p :: w.live, cancelled := cancelled }
  | .delTimer p => do
    let s ← delTimer w.heap (some p)
    pure { w with heap := s, cancelled := p :: w.cancelled }
  | .popTimer => do
    let p ← top w.heap
    let s ← popTimer w.heap
    pure { w with heap := s, live := w.live.filter (some · ≠ p) }
  | .top => do
    let _ ← top w.heap
    pure w
  | .tick cur => do
    let (s, env, popped) ← TimeHeap.tick cur w.heap w.env
    pure { w with heap := s, env := env, live := w.live.filter (some · ∉ popped.map Prod.fst) }

/-- The client makes a heap of capacity `cap` with one of the constructors: empty, or of
the timers `l` there are, some of which may have no callback. -/
def program (cap : ℕ) (env : σ) : Program (HeapWorld σ) (HeapOp σ) where
  init := fun w =>
    w = { heap := timeHeap (fun _ => none) cap, env := env, live := [], cancelled := [] } ∨
    ∃ m initArray l s, InitArray m initArray ∧ itemsOf initArray.data initArray.size = l.map some ∧
      timeHeapOf m initArray cap = pure (some s) ∧
      w = { heap := s, env := env, live := l, cancelled := l.filter fun a => ¬isSet m a }
  allowed := Allowed
  exec := exec

/-! ### The invariant -/

/-- **The invariant of the runs**: the heap holds the live timers, and those that have a
callback are the ones that were never cancelled. -/
structure Inv (w : HeapWorld σ) : Prop where
  holds : Holds w.heap
  perm : w.heap.items.Perm (w.live.map some)
  set : ∀ a ∈ w.live, isSet w.heap.mem a = decide (a ∉ w.cancelled)

variable {w w' : HeapWorld σ} {cap : ℕ} {env : σ} {a : Addr}

theorem Inv.mem_iff (h : Inv w) : some a ∈ w.heap.items ↔ a ∈ w.live := by
  rw [h.perm.mem_iff, List.mem_map]
  simp

theorem Inv.nodup (h : Inv w) : w.live.Nodup :=
  (h.perm.nodup_iff.mp h.holds.nodup).of_map

/-- A live timer is alive. -/
theorem Inv.alive (h : Inv w) (ha : a ∈ w.live) : ∃ t, w.heap.mem a = some t := by
  obtain ⟨b, t, hb, ht⟩ := h.holds.alive _ (h.mem_iff.mpr ha)
  exact ⟨t, by rw [Option.some.inj hb, ht]⟩

theorem inv_init (hcap : 1 ≤ cap) (hw : (program cap env).init w) : Inv w := by
  rcases hw with rfl | ⟨m, initArray, l, s, hinit, hl, hs, rfl⟩
  · obtain ⟨hholds, hitems⟩ := timeHeap_spec (σ := σ) (fun _ => rfl) hcap
    exact ⟨hholds, by rw [hitems]; rfl, fun a ha => absurd ha List.not_mem_nil⟩
  · have hle : initArray.size ≤ cap := by
      by_contra hlt
      rw [timeHeapOf, if_pos (not_le.mp hlt)] at hs
      cases Exec.pure_inj.mp hs
    obtain ⟨d, hd, hheap, hperm⟩ := timeHeapOf_spec hinit hle
    obtain rfl := Option.some.inj (Exec.pure_inj.mp (hd.symm.trans hs))
    refine ⟨hinit.holds hle hcap hheap hperm, hl ▸ hperm, fun a ha => ?_⟩
    by_cases hset : isSet m a = true
    · simp [hset, ha]
    · simp [hset, ha]

/-! ### One step -/

/-- The live timers that remain are those of the heap that remains. -/
theorem perm_filter {l out : List Addr} {items items' : List Ptr} {f : Addr → Bool}
    (hperm : items.Perm (l.map some)) (hnd : items.Nodup)
    (hsplit : items.Perm (out.map some ++ items')) (hf : ∀ a ∈ l, f a = decide (a ∉ out)) :
    items'.Perm ((l.filter f).map some) := by
  have hnd' := hsplit.nodup_iff.mp hnd
  have hlnd : l.Nodup := (hperm.nodup_iff.mp hnd).of_map
  refine (List.perm_ext_iff_of_nodup (List.nodup_append.mp hnd').2.1
    ((hlnd.filter _).map (Option.some_injective _))).mpr fun p => ?_
  have hmem : p ∈ l.map some ↔ p ∈ out.map some ∨ p ∈ items' := by
    rw [← hperm.mem_iff, hsplit.mem_iff, List.mem_append]
  constructor
  · intro hp
    obtain ⟨a, ha, rfl⟩ := List.mem_map.mp (hmem.mpr (Or.inr hp))
    refine List.mem_map_of_mem (List.mem_filter.mpr ⟨ha, ?_⟩)
    rw [hf a ha, decide_eq_true_eq]
    exact fun hc => (List.nodup_append.mp hnd').2.2 _ (List.mem_map_of_mem hc) _ hp rfl
  · intro hp
    obtain ⟨a, ha, rfl⟩ := List.mem_map.mp hp
    obtain ⟨hal, hfa⟩ := List.mem_filter.mp ha
    rw [hf a hal, decide_eq_true_eq] at hfa
    rcases hmem.mp (List.mem_map_of_mem hal) with hout | hin
    · obtain ⟨b, hb, hba⟩ := List.mem_map.mp hout
      exact absurd (Option.some.inj hba ▸ hb) hfa
    · exact hin

/-- **A timer is inserted.** -/
theorem Inv.addTimer (h : Inv w) (ha : w.heap.mem a = none) (t : HeapTimer σ) :
    ∃ w', exec w (.addTimer a t) = pure w' ∧ Inv w' := by
  obtain ⟨s, hrun, hholds, hperm, hmem⟩ := addTimer_spec h.holds ha t
  have hnew : a ∉ w.live := fun hc => by
    obtain ⟨u, hu⟩ := h.alive hc
    rw [ha] at hu
    cases hu
  refine ⟨_, by rw [exec, hrun, pure_bind], hholds, hperm.trans (h.perm.cons _), fun b hb => ?_⟩
  dsimp only
  rw [hmem]
  rcases List.mem_cons.mp hb with rfl | hb
  · rw [isSet, Mem.set_self]
    dsimp only
    cases t.cbFunc <;> simp
  · have hba : b ≠ a := ne_of_mem_of_not_mem hb hnew
    rw [isSet_congr (Mem.set_of_ne _ _ hba), h.set b hb]
    cases t.cbFunc <;> simp [hba]

/-- **A timer is cancelled.** -/
theorem Inv.delTimer (h : Inv w) (ha : a ∈ w.live) :
    ∃ w', exec w (.delTimer a) = pure w' ∧ Inv w' := by
  obtain ⟨t, ht⟩ := h.alive ha
  obtain ⟨s, hrun, hholds, hitems, hmem⟩ := delTimer_spec h.holds ht
  refine ⟨_, by rw [exec, hrun, pure_bind], hholds, ?_, fun b hb => ?_⟩
  · dsimp only
    rw [hitems]
    exact h.perm
  · dsimp only
    rw [hmem]
    by_cases hba : b = a
    · rw [hba, isSet, Mem.set_self]
      simp
    · rw [isSet_congr (Mem.set_of_ne _ _ hba), h.set b hb]
      simp [hba]

/-- **The earliest timer is popped**, if there is one. -/
theorem Inv.popTimer (h : Inv w) : ∃ w', exec w .popTimer = pure w' ∧ Inv w' := by
  rw [exec]
  by_cases hne : w.heap.curSize = 0
  · rw [top, if_pos hne, pure_bind, TimeHeap.popTimer, if_pos hne, pure_bind]
    refine ⟨_, rfl, h.holds, ?_, fun b hb => h.set b (List.mem_of_mem_filter hb)⟩
    rw [List.filter_eq_self.mpr (by simp)]
    exact h.perm
  · obtain ⟨a, t, ha, ht, -⟩ := h.holds.earliest hne
    obtain ⟨s, hrun, hholds, hperm, hmem⟩ := popTimer_spec h.holds hne ha ht
    rw [top, if_neg hne, Arr.get_eq (h.holds.size.symm ▸ h.holds.pos), pure_bind, hrun, pure_bind,
      ha]
    refine ⟨_, rfl, hholds, ?_, fun b hb => ?_⟩
    · have hsplit : w.heap.items.Perm ([a].map some ++ s.items) := hperm
      exact perm_filter h.perm h.holds.nodup hsplit fun b _ => by simp
    · obtain ⟨hbl, hba⟩ := List.mem_filter.mp hb
      have hne : b ≠ a := by simpa using hba
      dsimp only
      rw [hmem, isSet_congr (Mem.clear_of_ne _ hne), h.set b hbl]

/-- **What a tick does to the world**: the timers `out` are popped, in order, and those
that were never cancelled are called. -/
structure Struck (w : HeapWorld σ) (cur : ℤ) (out : List Addr) (w' : HeapWorld σ) : Prop where
  /-- Exactly the due timers are popped, each once and the earlier ones first. -/
  expires : (pending w.heap.mem).Expires cur out (pending w'.heap.mem)
  /-- The code pops these, and calls those that were not cancelled. -/
  run : TimeHeap.tick cur w.heap w.env =
    pure (w'.heap, w'.env, out.map fun a => (some a, decide (a ∉ w.cancelled)))
  /-- The callbacks act on the environment one after the other. -/
  env : w'.env = (out.filter (· ∉ w.cancelled)).foldl (call w.heap.mem) w.env
  /-- What was live was popped or is live. -/
  split : w.live.Perm (out ++ w'.live)
  /-- The earliest timer that remains is not due. -/
  top : w'.heap.curSize = 0 ∨
    ∃ p t, w'.heap.array.data 0 = some p ∧ w'.heap.mem p = some t ∧ cur < t.expire

/-- The timers without a callback do nothing. -/
theorem foldl_call_filter {m : Mem (HeapTimer σ)} {out : List Addr} {f : Addr → Bool}
    (h : ∀ a ∈ out, isSet m a = f a) (env : σ) :
    out.foldl (call m) env = (out.filter f).foldl (call m) env := by
  induction out generalizing env with
  | nil => rfl
  | cons a out ih =>
    have ha := h a List.mem_cons_self
    have hout := ih fun b hb => h b (List.mem_cons_of_mem a hb)
    rw [List.foldl_cons, List.filter_cons, ← ha]
    by_cases hset : isSet m a = true
    · rw [if_pos hset, List.foldl_cons]
      exact hout _
    · have hid : call m env a = env := by
        rw [call]
        rw [isSet] at hset
        cases hm : m a with
        | none => rfl
        | some t =>
          rw [hm] at hset
          have hnone : t.cbFunc = none := by simpa using hset
          dsimp only
          rw [callback, hnone]
      rw [if_neg hset, hid]
      exact hout env

/-- **The clock strikes.** -/
theorem Inv.tick (h : Inv w) (cur : ℤ) :
    ∃ w' out, exec w (.tick cur) = pure w' ∧ Inv w' ∧ Struck w cur out w' := by
  obtain ⟨s, out, hrun, hholds, hexp, hperm, hframe⟩ := tick_spec cur h.holds w.env
  have hout : ∀ a ∈ out, a ∈ w.live := fun a ha =>
    h.mem_iff.mp (hperm.mem_iff.mpr (List.mem_append_left _ (List.mem_map_of_mem ha)))
  have hset : ∀ a ∈ out, isSet w.heap.mem a = decide (a ∉ w.cancelled) := fun a ha =>
    h.set a (hout a ha)
  -- the client is told which timers have been fired, and takes them off its list
  have hlive : w.live.filter (fun a => some a ∉ (out.map fun a =>
      (some a, isSet w.heap.mem a)).map Prod.fst) = w.live.filter (· ∉ out) := by
    refine List.filter_congr fun a _ => ?_
    rw [List.map_map]
    simp
  obtain ⟨w', hw'⟩ : ∃ w', w' = { w with
    heap := s
    env := out.foldl (call w.heap.mem) w.env
    live := w.live.filter (· ∉ out) } := ⟨_, rfl⟩
  have hinv : Inv w' := by
    rw [hw']
    refine ⟨hholds, perm_filter h.perm h.holds.nodup hperm fun b _ => rfl, fun b hb => ?_⟩
    obtain ⟨hbl, hbo⟩ := List.mem_filter.mp hb
    dsimp only
    rw [isSet_congr (hframe b (by simpa using hbo)), h.set b hbl]
  refine ⟨w', out, ?_, hinv, ?_, ?_, ?_, ?_, ?_⟩
  · rw [exec, hrun, pure_bind, hw']
    dsimp only
    rw [hlive]
  · rw [hw']
    exact hexp
  · rw [hrun, hw']
    exact congrArg (fun l => pure (s, _, l)) (List.map_congr_left fun a ha => by rw [hset a ha])
  · rw [hw']
    exact foldl_call_filter hset w.env
  · rw [hw']
    have hsplit : (w.live.map some).Perm ((out ++ w.live.filter (· ∉ out)).map some) := by
      rw [List.map_append]
      refine (h.perm.symm.trans hperm).trans (List.Perm.append_left _ ?_)
      exact perm_filter h.perm h.holds.nodup hperm fun b _ => rfl
    exact (List.map_perm_map_iff (Option.some_injective _)).mp hsplit
  · rw [hw']
    -- what is left at the top of the heap is not due
    by_cases hzero : s.curSize = 0
    · exact Or.inl hzero
    · obtain ⟨p, t, hp, ht, -⟩ := hholds.earliest hzero
      exact Or.inr ⟨p, t, hp, ht, hexp.lt_of_rest (pending_eq_some.mpr ⟨t, ht, rfl⟩)⟩

/-- **An allowed operation** returns and keeps the invariant. -/
theorem Inv.step (h : Inv w) (op : HeapOp σ) (hop : Allowed w op) :
    ∃ w', exec w op = pure w' ∧ Inv w' := by
  cases op with
  | addTimer p timer => exact h.addTimer hop timer
  | delTimer p => exact h.delTimer hop
  | popTimer => exact h.popTimer
  | top =>
    refine ⟨w, ?_, h⟩
    rw [exec, top]
    split
    · rfl
    · rw [Arr.get_eq (h.holds.size.symm ▸ h.holds.pos), pure_bind]
  | tick cur =>
    obtain ⟨w', -, hrun, hinv, -⟩ := h.tick cur
    exact ⟨w', hrun, hinv⟩

theorem reachable_inv (hcap : 1 ≤ cap) (h : (program cap env).Reachable w) :
    Inv w ∧ ∀ op, Allowed w op → ∃ w', exec w op = pure w' :=
  Program.safe (P := program cap env) (fun _ hw => inv_init hcap hw)
    (fun _ op hw hop => hw.step op hop) h

/-! ### What the client sees -/

/-- **A heap in order**: no element of the array is earlier than its parent, and the
elements are the live timers, each once. -/
structure WellOrdered (w : HeapWorld σ) : Prop where
  heap : IsHeap (keyOf w.heap.mem ∘ w.heap.array.data) w.heap.curSize
  perm : w.heap.items.Perm (w.live.map some)
  nodup : w.live.Nodup

/-- **No array is accessed out of its bounds**: neither by the second constructor, for a
heap of capacity `cap`, nor by any later operation; and the elements fit into the
array, which is as long as the capacity says. -/
def InBounds (cap : ℕ) (env : σ) : Prop :=
  (∀ (m : Mem (HeapTimer σ)) initArray, InitArray m initArray →
    timeHeapOf m initArray cap ≠ throw .outOfRange) ∧
  ∀ w, (program cap env).Reachable w →
    w.heap.curSize ≤ w.heap.capacity ∧ w.heap.array.size = w.heap.capacity ∧
      ∀ op, Allowed w op → exec w op ≠ throw .outOfRange

/-- The heap of capacity `0`, which the constructor makes. -/
def emptyWorld (env : σ) : HeapWorld σ where
  heap := timeHeap (fun _ => none) 0
  env := env
  live := []
  cancelled := []

/-- **A heap of capacity `0` is ticked**: the first element of its array is read, and
there is none. -/
theorem exec_tick_emptyWorld (env : σ) (cur : ℤ) :
    exec (emptyWorld env) (.tick cur) = throw .outOfRange := rfl

/-- **A timer is inserted into a heap of capacity `0`**: `resize` doubles the capacity to
`0`, and the timer is written behind the end of the array. -/
theorem exec_addTimer_emptyWorld (env : σ) (p : Addr) (t : HeapTimer σ) :
    exec (emptyWorld env) (.addTimer p t) = throw .outOfRange := by
  rw [exec, TimeHeap.addTimer, if_neg (by simp)]
  change (upLoop _ (some p) 0 >>= _) >>= _ = _
  rw [upLoop, if_neg (lt_irrefl 0)]
  rfl

end HeapWorld

end Candcpp
