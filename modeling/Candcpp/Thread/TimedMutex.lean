import Candcpp.Concurrent.WaitSet
import Candcpp.Lts

/-!
# Counting under a timed lock

The threads of `3_mutex.cpp` that run `func3` add to `x` ten thousand times each. Every time they
construct a `unique_lock` of a `timed_mutex` with a limit of three seconds, which may return without
the lock, and they do not ask whether it has got it (`owns_lock`).

**If no attempt times out, then `x` is only read and written by the owner of the lock, and has grown
by ten thousand for each thread in the end; and the threads can only get there so**
(`Candcpp.TimedMutex.run_owned_iff`). The functions next to it, `func` and `func2`, wait for the
lock without a limit.
-/

namespace Candcpp

open Cpp

/-! ### The code -/

/-- Where a thread is in the turn `i` of the loop of `func3`, and whether its `unique_lock` owns the
mutex. -/
inductive Func3 where
  /-- `unique_lock<timed_mutex> ul(t_mutex, chrono::seconds(3))` comes next. -/
  | locking (i : ℕ) : Func3
  /-- `++x` comes next. -/
  | reading (i : ℕ) (owns : Bool) : Func3
  /-- `++x` has read `v`, and is to write. -/
  | writing (i : ℕ) (owns : Bool) (v : ℤ) : Func3
  /-- The destructor of `ul` comes next. -/
  | releasing (i : ℕ) (owns : Bool) : Func3
  /-- The loop has ended. -/
  | finished : Func3
  deriving DecidableEq, Repr

/-- The variable `x`, the owner of `t_mutex`, and the threads. -/
structure TimedMutex where
  x : ℤ
  owner : Option ℕ
  threads : List Func3

/-- The number of turns of the loop. -/
def rounds : ℕ := 10000

namespace TimedMutex

/-- The steps of the thread `j`, in the turn `i` of its loop. -/
inductive Act where
  /-- The constructor of `ul` has locked the mutex. -/
  | acquire (j i : ℕ) : Act
  /-- It has given up. -/
  | timeOut (j i : ℕ) : Act
  | read (j i : ℕ) (owns : Bool) : Act
  | write (j i : ℕ) (owns : Bool) (v : ℤ) : Act
  | release (j i : ℕ) (owns : Bool) : Act
  deriving DecidableEq, Repr

/-- `k` threads start. -/
def create (k : ℕ) : TimedMutex where
  x := 0
  owner := none
  threads := List.replicate k (.locking 0)

/-- The thread `j` comes to a point of the code. -/
def move (s : TimedMutex) (j : ℕ) (p : Func3) : TimedMutex :=
  { s with threads := s.threads.set j p }

/-- A step is taken by a thread that has come to it, and the mutex is locked only if it is free. -/
def Allowed (s : TimedMutex) : Act → Prop
  | .acquire j i => s.threads[j]? = some (.locking i) ∧ s.owner = none
  | .timeOut j i => s.threads[j]? = some (.locking i)
  | .read j i owns => s.threads[j]? = some (.reading i owns)
  | .write j i owns v => s.threads[j]? = some (.writing i owns v)
  | .release j i owns => s.threads[j]? = some (.releasing i owns)

instance (s : TimedMutex) : (a : Act) → Decidable (s.Allowed a)
  | .acquire _ _ => inferInstanceAs (Decidable (_ ∧ _))
  | .timeOut _ _ | .read _ _ _ | .write _ _ _ _ | .release _ _ _ =>
    inferInstanceAs (Decidable (_ = _))

/-- The step. -/
def exec (s : TimedMutex) : Act → Exec TimedMutex
  | .acquire j i => pure { s.move j (.reading i true) with owner := some j }
  | .timeOut j i => pure (s.move j (.reading i false))
  | .read j i owns => pure (s.move j (.writing i owns s.x))
  | .write j i owns v => do
    let x ← int (v + 1)
    pure { s.move j (.releasing i owns) with x := x }
  | .release j i owns =>
    let next : Func3 := if i + 1 < rounds then .locking (i + 1) else .finished
    pure { s.move j next with owner := if owns then none else s.owner }

/-- `k` threads run `func3`. -/
def program (k : ℕ) : Program TimedMutex Act where
  init := fun s => s = create k
  allowed := Allowed
  exec := exec

instance (k : ℕ) (s : TimedMutex) (a : Act) : Decidable ((program k).allowed s a) :=
  inferInstanceAs (Decidable (s.Allowed a))

/-! ### The owner of the lock -/

/-- The attempt to lock the mutex times out. -/
def TimesOut : Act → Prop
  | .timeOut _ _ => True
  | _ => False

/-- A thread that reads or writes `x` owns the mutex. -/
def OwnedAccess (s : TimedMutex) : Act → Prop
  | .read j _ _ => s.owner = some j
  | .write j _ _ _ => s.owner = some j
  | _ => True

instance : (a : Act) → Decidable (TimesOut a)
  | .timeOut _ _ => inferInstanceAs (Decidable True)
  | .acquire _ _ | .read _ _ _ | .write _ _ _ _ | .release _ _ _ =>
    inferInstanceAs (Decidable False)

/-- The `unique_lock` of a thread owns the mutex. -/
def owns : Func3 → Bool
  | .locking _ => false
  | .reading _ owns => owns
  | .writing _ owns _ => owns
  | .releasing _ owns => owns
  | .finished => false

/-- There is a `unique_lock`. -/
def inside : Func3 → Bool
  | .locking _ => false
  | .reading _ _ => true
  | .writing _ _ _ => true
  | .releasing _ _ => true
  | .finished => false

/-- The turns of the loop of a thread that have not added to `x`. -/
def remaining : Func3 → ℕ
  | .locking i => rounds - i
  | .reading i _ => rounds - i
  | .writing i _ _ => rounds - i
  | .releasing i _ => rounds - (i + 1)
  | .finished => 0

/-- The turn of the loop is one of them. -/
def InLoop : Func3 → Prop
  | .locking i => i < rounds
  | .reading i _ => i < rounds
  | .writing i _ _ => i < rounds
  | .releasing i _ => i < rounds
  | .finished => True

/-- The mutex knows its owner. -/
def KnowsOwner (s : TimedMutex) : Prop :=
  ∀ j p, s.threads[j]? = some p → (owns p = true ↔ s.owner = some j)

/-- What holds as long as no attempt times out. -/
structure Counts (k : ℕ) (s : TimedMutex) : Prop where
  inLoop : ∀ p ∈ s.threads, InLoop p
  /-- Every `unique_lock` owns the mutex. -/
  owned : ∀ p ∈ s.threads, inside p = true → owns p = true
  /-- What a thread has read is still there when it writes. -/
  current : ∀ (j i : ℕ) (b : Bool) (v : ℤ), s.threads[j]? = some (.writing i b v) → v = s.x
  nonneg : 0 ≤ s.x
  total : s.x + ((s.threads.map remaining).sum : ℕ) = (rounds * k : ℕ)

variable {s s' : TimedMutex} {a : Act} {j i k : ℕ} {p q : Func3} {l : List (TimedMutex × Act)}

theorem knowsOwner_create (k : ℕ) : (create k).KnowsOwner := by
  intro j p hj
  obtain ⟨-, rfl⟩ := List.mem_replicate.mp (List.mem_of_getElem? hj)
  simp [owns, create]

/-- A thread moves on with its lock. -/
theorem KnowsOwner.move (h : s.KnowsOwner) (hj : s.threads[j]? = some p) (hq : owns q = owns p) :
    (s.move j q).KnowsOwner := by
  intro j' p' hj'
  rcases WaitSet.getElem?_move hj' with ⟨rfl, rfl⟩ | ⟨-, hj'⟩
  · rw [hq]
    exact h j p hj
  · exact h j' p' hj'

theorem KnowsOwner.step (h : s.KnowsOwner) (hall : s.Allowed a) (hs : s.exec a = pure s') :
    s'.KnowsOwner := by
  cases a with
  | acquire j i =>
    obtain rfl := Exec.pure_inj.mp hs
    obtain ⟨hj, hfree⟩ := hall
    intro j' p' hj'
    rcases WaitSet.getElem?_move hj' with ⟨rfl, rfl⟩ | ⟨hne, hj'⟩
    · exact iff_of_true rfl rfl
    · have hp := h j' p' hj'
      rw [hfree] at hp
      exact iff_of_false (fun ho => nomatch hp.mp ho) fun heq => hne (Option.some.inj heq)
  | timeOut j i =>
    obtain rfl := Exec.pure_inj.mp hs
    exact h.move hall rfl
  | read j i b =>
    obtain rfl := Exec.pure_inj.mp hs
    exact h.move hall rfl
  | write j i b v =>
    obtain ⟨x, -, hs⟩ := Exec.bind_eq_pure.mp hs
    obtain rfl := Exec.pure_inj.mp hs
    exact h.move (q := .releasing i b) hall rfl
  | release j i b =>
    obtain rfl := Exec.pure_inj.mp hs
    -- the destructor of a `unique_lock` that owns nothing leaves the owner as it is
    have hb : b = true ↔ s.owner = some j := h j _ hall
    intro j' p' hj'
    rcases WaitSet.getElem?_move hj' with ⟨rfl, rfl⟩ | ⟨hne, hold⟩
    · refine iff_of_false (by split_ifs <;> simp [owns]) ?_
      cases b with
      | true => nofun
      | false => exact fun ho => nomatch hb.mpr ho
    · have hp := h j' p' hold
      cases b with
      | true =>
        rw [hb.mp rfl] at hp
        exact iff_of_false (fun ho => hne (Option.some.inj (hp.mp ho))) nofun
      | false => exact hp

/-! ### Counting -/

theorem counts_create (k : ℕ) : (create k).Counts k where
  inLoop := fun p hp => by
    obtain ⟨-, rfl⟩ := List.mem_replicate.mp hp
    exact Nat.zero_lt_succ _
  owned := fun p hp => by
    obtain ⟨-, rfl⟩ := List.mem_replicate.mp hp
    nofun
  current := fun j i b v hj => by
    obtain ⟨-, hp⟩ := List.mem_replicate.mp (List.mem_of_getElem? hj)
    cases hp
  nonneg := le_rfl
  total := by simp [create, remaining, Nat.mul_comm]

/-- A thread moves on, and has as many turns left as before. -/
theorem Counts.move (h : s.Counts k) (hj : s.threads[j]? = some p) (hloop : InLoop q)
    (howned : inside q = true → owns q = true) (hcurrent : ∀ i b v, q = .writing i b v → v = s.x)
    (hremaining : remaining q = remaining p) : (s.move j q).Counts k where
  inLoop := fun p' hp' => by
    rcases List.mem_or_eq_of_mem_set hp' with hp' | rfl
    · exact h.inLoop p' hp'
    · exact hloop
  owned := fun p' hp' => by
    rcases List.mem_or_eq_of_mem_set hp' with hp' | rfl
    · exact h.owned p' hp'
    · exact howned
  current := fun j' i b v hj' => by
    rcases WaitSet.getElem?_move hj' with ⟨-, hq⟩ | ⟨-, hj'⟩
    · exact hcurrent i b v hq.symm
    · exact h.current j' i b v hj'
  nonneg := h.nonneg
  total := by
    have hsum := WaitSet.sum_move hj q remaining
    rw [hremaining] at hsum
    rw [← h.total]
    exact congrArg (fun n : ℕ => s.x + n) (Nat.add_right_cancel hsum)

/-- The value that is written is in the range of an `int` if the sum of all turns is. -/
theorem Counts.written (h : s.Counts k) {b : Bool} {v : ℤ}
    (hj : s.threads[j]? = some (.writing i b v)) :
    v = s.x ∧ i < rounds ∧ v + 1 ≤ (rounds * k : ℕ) := by
  have hv := h.current j i b v hj
  have hi : i < rounds := h.inLoop _ (List.mem_of_getElem? hj)
  have hle : remaining (.writing i b v) ≤ (s.threads.map remaining).sum :=
    List.single_le_sum (fun _ _ => Nat.zero_le _) _
      (List.mem_map_of_mem (List.mem_of_getElem? hj))
  have htotal := h.total
  simp only [remaining] at hle
  omega

theorem Counts.step (h : s.Counts k) (hown : s.KnowsOwner) (hall : s.Allowed a)
    (ha : ¬ TimesOut a) (hs : s.exec a = pure s') : s'.Counts k := by
  cases a with
  | acquire j i =>
    obtain rfl := Exec.pure_inj.mp hs
    have hi : i < rounds := h.inLoop _ (List.mem_of_getElem? hall.1)
    have hm := h.move (q := .reading i true) hall.1 hi (fun _ => rfl) nofun rfl
    exact ⟨hm.inLoop, hm.owned, hm.current, hm.nonneg, hm.total⟩
  | timeOut j i => exact absurd trivial ha
  | read j i b =>
    obtain rfl := Exec.pure_inj.mp hs
    have hmem := List.mem_of_getElem? hall
    have hi : i < rounds := h.inLoop _ hmem
    have hb : b = true := h.owned _ hmem rfl
    refine h.move hall hi (fun _ => hb) ?_ rfl
    rintro _ _ _ ⟨⟩
    rfl
  | write j i b v =>
    obtain ⟨x, hx, hs⟩ := Exec.bind_eq_pure.mp hs
    obtain rfl := Exec.pure_inj.mp hs
    obtain ⟨-, rfl⟩ := int_eq_pure.mp hx
    obtain ⟨rfl, hi, -⟩ := h.written hall
    -- the thread owns the lock, so that no other one is to write
    have hb : b = true := h.owned _ (List.mem_of_getElem? hall) rfl
    have howner := (hown j _ hall).mp hb
    refine ⟨fun p' hp' => ?_, fun p' hp' => ?_, fun j' i' b' v' hj' => ?_, ?_, ?_⟩
    · rcases List.mem_or_eq_of_mem_set hp' with hp' | rfl
      · exact h.inLoop p' hp'
      · exact hi
    · rcases List.mem_or_eq_of_mem_set hp' with hp' | rfl
      · exact h.owned p' hp'
      · exact fun _ => hb
    · rcases WaitSet.getElem?_move hj' with ⟨-, hq⟩ | ⟨hne, hj'⟩
      · cases hq
      · have hother := (hown j' _ hj').mp (h.owned _ (List.mem_of_getElem? hj') rfl)
        exact absurd (Option.some.inj (howner.symm.trans hother)) hne
    · exact h.nonneg.trans (Int.le_add_one le_rfl)
    · have hsum := WaitSet.sum_move hall (.releasing i b) remaining
      have htotal := h.total
      simp only [remaining] at hsum
      show s.x + 1 + (((s.threads.set j (.releasing i b)).map remaining).sum : ℕ) = _
      omega
  | release j i b =>
    obtain rfl := Exec.pure_inj.mp hs
    have hm : (s.move j (if i + 1 < rounds then .locking (i + 1) else .finished)).Counts k := by
      split_ifs with hi
      · exact h.move hall hi nofun nofun rfl
      · exact h.move hall trivial nofun nofun (Nat.sub_eq_zero_of_le (Nat.le_of_not_lt hi)).symm
    exact ⟨hm.inLoop, hm.owned, hm.current, hm.nonneg, hm.total⟩

theorem Counts.ownedAccess (h : s.Counts k) (hown : s.KnowsOwner) (hall : s.Allowed a) :
    s.OwnedAccess a := by
  cases a with
  | read j i b => exact (hown j _ hall).mp (h.owned _ (List.mem_of_getElem? hall) rfl)
  | write j i b v => exact (hown j _ hall).mp (h.owned _ (List.mem_of_getElem? hall) rfl)
  | _ => trivial

/-- No value of `x` is out of the range of an `int`, unless their sum is. -/
theorem Counts.returns (h : s.Counts k) (hk : (rounds * k : ℕ) ≤ intMax) (hall : s.Allowed a) :
    ∃ s', s.exec a = pure s' := by
  cases a with
  | write j i b v =>
    obtain ⟨hv, -, hle⟩ := h.written hall
    have hnonneg := h.nonneg
    have hint : int (v + 1) = pure (v + 1) :=
      int_eq (by simp only [intMin]; omega) (hle.trans hk)
    exact ⟨_, by rw [exec, hint, pure_bind]⟩
  | _ => exact ⟨_, rfl⟩

theorem Counts.x_eq (h : s.Counts k) (hfinished : ∀ p ∈ s.threads, p = .finished) :
    s.x = (rounds * k : ℕ) := by
  have hzero : (s.threads.map remaining).sum = 0 := by
    refine List.sum_eq_zero fun n hn => ?_
    obtain ⟨p, hp, rfl⟩ := List.mem_map.mp hn
    rw [hfinished p hp]
    rfl
  rw [← h.total, hzero, Nat.cast_zero, add_zero]

/-! ### After a timeout -/

/-- The thread that takes the step. -/
def Act.thread : Act → ℕ
  | .acquire j _ => j
  | .timeOut j _ => j
  | .read j _ _ => j
  | .write j _ _ _ => j
  | .release j _ _ => j

theorem threads_exec (hs : s.exec a = pure s') : ∃ q, s'.threads = s.threads.set a.thread q := by
  cases a with
  | write j i b v =>
    obtain ⟨x, -, hs⟩ := Exec.bind_eq_pure.mp hs
    obtain rfl := Exec.pure_inj.mp hs
    exact ⟨_, rfl⟩
  | _ =>
    obtain rfl := Exec.pure_inj.mp hs
    exact ⟨_, rfl⟩

theorem eq_read_of_reading {b : Bool} (hall : s.Allowed a)
    (hj : s.threads[a.thread]? = some (.reading i b)) : a = .read a.thread i b := by
  cases a with
  | acquire j i' => cases hj.symm.trans hall.1
  | read j i' b' =>
    cases hj.symm.trans hall
    rfl
  | timeOut j i' | write j i' b' v | release j i' b' => cases hj.symm.trans hall

/-- **A thread without the lock stays where it is**, if no thread without the lock reads. -/
theorem reading_step (hown : s.KnowsOwner) (hall : s.Allowed a) (hs : s.exec a = pure s')
    (ha : s.OwnedAccess a) (hj : s.threads[j]? = some (.reading i false)) :
    s'.threads[j]? = some (.reading i false) := by
  by_cases hthread : a.thread = j
  · subst hthread
    rw [eq_read_of_reading hall hj] at ha
    exact nomatch (hown a.thread _ hj).mpr ha
  · obtain ⟨q, hq⟩ := threads_exec hs
    rw [hq, List.getElem?_set_ne hthread]
    exact hj

/-! ### Every run -/

theorem run_knowsOwner (h : (program k).lts.Run (create k) l s) :
    ∀ t ∈ Lts.visited l s, t.KnowsOwner :=
  h.invariant (knowsOwner_create k) fun _ _ _ hown hstep => hown.step hstep.1 hstep.2

theorem run_counts (h : (program k).lts.Run (create k) l s) (hl : ∀ p ∈ l, ¬ TimesOut p.2) :
    ∀ t ∈ Lts.visited l s, t.Counts k := by
  refine h.invariant (counts_create k) fun p hp t hcounts hstep => ?_
  have hown := run_knowsOwner h p.1 (Lts.mem_visited hp s)
  exact hcounts.step hown hstep.1 (hl p hp) hstep.2

/-- After a timeout some thread is about to read without the lock, until it does. -/
theorem run_reading (h : (program k).lts.Run (create k) l s)
    (hl : ∀ p ∈ l, p.1.OwnedAccess p.2) :
    ∀ p ∈ l, TimesOut p.2 → ∃ j i : ℕ, s.threads[j]? = some (.reading i false) := by
  induction h with
  | nil => nofun
  | @snoc l s s' a h hs ih =>
    intro p hp htimes
    have hown := run_knowsOwner h s (Lts.last_mem_visited l s)
    have hlast : s.OwnedAccess a := hl (s, a) (by simp)
    rcases List.mem_append.mp hp with hp | hp
    · obtain ⟨j, i, hj⟩ := ih (fun p hp => hl p (List.mem_append_left _ hp)) p hp htimes
      exact ⟨j, i, reading_step hown hs.1 hs.2 hlast hj⟩
    -- the last step is the timeout
    · obtain rfl := List.mem_singleton.mp hp
      cases a with
      | timeOut j i =>
        obtain rfl := Exec.pure_inj.mp hs.2
        exact ⟨j, i, WaitSet.getElem?_moved hs.1 _⟩
      | _ => exact htimes.elim

/-- **When `x` is counted right**: in a run without timeouts `x` is only read and written by the
owner of the lock, it is ten thousand for each thread when all have finished, and no step overflows
if that is an `int`; and when all threads have finished, there must have been no timeout for `x` to
be accessed by the owner of the lock only. -/
theorem run_owned_iff (h : (program k).lts.Run (create k) l s) :
    ((∀ p ∈ l, ¬ TimesOut p.2) →
        (∀ p ∈ l, p.1.OwnedAccess p.2) ∧
          ((∀ p ∈ s.threads, p = .finished) → s.x = (10000 * k : ℕ)) ∧
          ((10000 * k : ℕ) ≤ intMax →
            ∀ t ∈ Lts.visited l s, ∀ a, t.Allowed a → ∃ t', t.exec a = pure t')) ∧
      ((∀ p ∈ s.threads, p = .finished) → (∀ p ∈ l, p.1.OwnedAccess p.2) →
        ∀ p ∈ l, ¬ TimesOut p.2) := by
  constructor
  · intro hl
    have hcounts := run_counts h hl
    refine ⟨fun p hp => ?_, (hcounts s (Lts.last_mem_visited l s)).x_eq, fun hk t ht a hall => ?_⟩
    · obtain ⟨t, hstep, -⟩ := h.next hp
      have hmem := Lts.mem_visited hp s
      exact (hcounts p.1 hmem).ownedAccess (run_knowsOwner h p.1 hmem) hstep.1
    · exact (hcounts t ht).returns hk hall
  · intro hfinished hl p hp htimes
    obtain ⟨j, i, hj⟩ := run_reading h hl p hp htimes
    cases hfinished _ (List.mem_of_getElem? hj)

/-- A thread that adds once, while another one waits. -/
theorem run_owned_iff_two : ∃ l s, (program 2).lts.Run (create 2) l s ∧ s.x = 1 ∧
    ∀ p ∈ l, p.1.OwnedAccess p.2 := by
  have hrun := Lts.Run.of_trace (M := (program 2).lts) (f := (program 2).tryStep)
    Program.tryStep_step (s := create 2)
    (l := [.acquire 0 0, .read 0 0 true, .write 0 0 true 0, .release 0 0 true, .acquire 1 0]) rfl
  exact ⟨_, _, hrun, rfl, ((run_owned_iff hrun).1 (by decide)).1⟩

/-- A thread reads `x` while another one has the lock. -/
theorem not_run_owned :
    ¬ ∀ k l s, (program k).lts.Run (create k) l s →
      (∀ p ∈ l, p.1.OwnedAccess p.2) ∧
        ((∀ p ∈ s.threads, p = .finished) → s.x = (10000 * k : ℕ)) := by
  intro h
  have hrun := Lts.Run.of_trace (M := (program 2).lts) (f := (program 2).tryStep)
    Program.tryStep_step (s := create 2) (l := [.acquire 0 0, .timeOut 1 0, .read 1 0 false]) rfl
  have hread := (h 2 _ _ hrun).1 (_, .read 1 0 false) (List.mem_of_getLast? rfl)
  -- the owner is the other thread
  exact Nat.zero_ne_one (Option.some.inj hread)

end TimedMutex

end Candcpp
