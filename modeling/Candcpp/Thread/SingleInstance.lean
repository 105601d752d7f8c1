import Candcpp.Concurrent.WaitSet
import Candcpp.Lts

/-!
# One instance of a class

`Log::getInstance` of `4_single_instance.cpp` keeps the address of the only `Log` in a static
variable, which is null at first, and creates the `Log` when it finds the variable null. Between the
test, `new` and the assignment there is nothing that would keep another thread from testing as well.

Each test that finds a null pointer creates one `Log` (`Candcpp.LogWorld.tests_step`). So **there is
only one `Log`, and every call returns it, if no thread tests the pointer after another one has
found it null and before that one has stored it**; and where all calls have returned this is the
only way (`Candcpp.LogWorld.run_oneLog_iff`).
-/

namespace Candcpp

open Cpp

/-! ### The code -/

/-- Where a thread is in `getInstance`. -/
inductive GetInstance where
  /-- It has not called it, or has returned. -/
  | idle : GetInstance
  /-- `if (!log_ptr)` comes next. -/
  | testing : GetInstance
  /-- It has found a null pointer; `new Log()` comes next. -/
  | allocating : GetInstance
  /-- `log_ptr = …` comes next, with this address. -/
  | storing (a : Addr) : GetInstance
  /-- `return *log_ptr` comes next. -/
  | returning : GetInstance
  deriving DecidableEq, Repr

/-- The static pointer, every `Log` that has been created, the threads, and what the calls have
returned. -/
structure LogWorld where
  logPtr : Ptr
  created : List Addr
  threads : List GetInstance
  returned : List Addr

namespace LogWorld

/-- The steps of the threads. -/
inductive Act where
  | call (i : ℕ) : Act
  | test (i : ℕ) : Act
  | new (i : ℕ) (a : Addr) : Act
  | store (i : ℕ) (a : Addr) : Act
  | ret (i : ℕ) : Act
  deriving DecidableEq, Repr

/-- The static pointer is null, and `n` threads have not called `getInstance`. -/
def create (n : ℕ) : LogWorld where
  logPtr := none
  created := []
  threads := List.replicate n .idle
  returned := []

/-- The thread `i` comes to a point of the code. -/
def move (s : LogWorld) (i : ℕ) (p : GetInstance) : LogWorld :=
  { s with threads := s.threads.set i p }

/-- A step is taken by a thread that has come to it, and `new` returns an address of its own. -/
def Allowed (s : LogWorld) : Act → Prop
  | .call i => s.threads[i]? = some .idle
  | .test i => s.threads[i]? = some .testing
  | .new i a => s.threads[i]? = some .allocating ∧ a ∉ s.created
  | .store i a => s.threads[i]? = some (.storing a)
  | .ret i => s.threads[i]? = some .returning

instance (s : LogWorld) : (a : Act) → Decidable (s.Allowed a)
  | .call _ | .test _ | .store _ _ | .ret _ => inferInstanceAs (Decidable (_ = _))
  | .new _ _ => inferInstanceAs (Decidable (_ ∧ _))

/-- The step. -/
def exec (s : LogWorld) : Act → Exec LogWorld
  | .call i => pure (s.move i .testing)
  | .test i => pure (s.move i (if s.logPtr = none then .allocating else .returning))
  | .new i a => pure { s.move i (.storing a) with created := s.created ++ [a] }
  | .store i a => pure { s.move i .returning with logPtr := some a }
  | .ret i =>
    match s.logPtr with
    | none => throw .nullDeref
    | some a => pure { s.move i .idle with returned := s.returned ++ [a] }

/-- The calls of `getInstance` by `n` threads. -/
def program (n : ℕ) : Program LogWorld Act where
  init := fun s => s = create n
  allowed := Allowed
  exec := exec

instance (n : ℕ) (s : LogWorld) (a : Act) : Decidable ((program n).allowed s a) :=
  inferInstanceAs (Decidable (s.Allowed a))

/-! ### What the threads have found -/

/-- A thread has found a null pointer, and its `Log` is still to be created. -/
def allocates : GetInstance → ℕ
  | .allocating => 1
  | _ => 0

/-- A thread has found a null pointer, and has not stored another one yet. -/
def creates : GetInstance → ℕ
  | .allocating => 1
  | .storing _ => 1
  | _ => 0

/-- The number of tests that have found a null pointer: for each there is a `Log`, or there will
be. -/
def tests (s : LogWorld) : ℕ := (s.threads.map allocates).sum + s.created.length

/-- The number of threads between the test and the assignment. -/
def creating (s : LogWorld) : ℕ := (s.threads.map creates).sum

/-- The step is a test that finds a null pointer. -/
def FindsNull (s : LogWorld) : Act → Prop
  | .test _ => s.logPtr = none
  | _ => False

/-- **No other thread is between its test and its assignment** when a test finds a null pointer. -/
def Undisturbed (s : LogWorld) (a : Act) : Prop := s.FindsNull a → s.creating = 0

instance (s : LogWorld) : (a : Act) → Decidable (s.FindsNull a)
  | .test _ => inferInstanceAs (Decidable (s.logPtr = none))
  | .call _ | .new _ _ | .store _ _ | .ret _ => inferInstanceAs (Decidable False)

instance (s : LogWorld) (a : Act) : Decidable (s.Undisturbed a) :=
  inferInstanceAs (Decidable (s.FindsNull a → s.creating = 0))

/-- There is at most one `Log`, and the calls have returned it. -/
def OneLog (s : LogWorld) : Prop := s.created.length ≤ 1 ∧ ∀ a ∈ s.returned, s.created = [a]

/-- What holds in every run. -/
structure Sound (s : LogWorld) : Prop where
  stored : ∀ a, s.logPtr = some a → a ∈ s.created
  storing : ∀ a, .storing a ∈ s.threads → a ∈ s.created
  returned : ∀ a ∈ s.returned, a ∈ s.created
  tested : .returning ∈ s.threads → s.logPtr ≠ none
  /-- While the pointer is null, the threads that have found it null have not stored anything. -/
  creating_eq : s.logPtr = none → s.tests = s.creating

variable {s s' : LogWorld} {a : Act} {n i : ℕ} {p q : GetInstance} {l : List (LogWorld × Act)}

theorem FindsNull.logPtr_eq (h : s.FindsNull a) : s.logPtr = none := by
  cases a with
  | test i => exact h
  | _ => exact h.elim

theorem creating_move (h : s.threads[i]? = some p) (q : GetInstance) :
    (s.move i q).creating + creates p = s.creating + creates q :=
  WaitSet.sum_move h q creates

theorem tests_move (h : s.threads[i]? = some p) (q : GetInstance) :
    (s.move i q).tests + allocates p = s.tests + allocates q := by
  have hsum := WaitSet.sum_move h q allocates
  simp only [tests, move]
  omega

/-- **Only a test that finds a null pointer adds a `Log`.** -/
theorem tests_step (hall : s.Allowed a) (hs : s.exec a = pure s') :
    (s.FindsNull a → s'.tests = s.tests + 1) ∧ (¬ s.FindsNull a → s'.tests = s.tests) := by
  cases a with
  | call i =>
    obtain rfl := Exec.pure_inj.mp hs
    exact ⟨False.elim, fun _ => tests_move hall .testing⟩
  | test i =>
    obtain rfl := Exec.pure_inj.mp hs
    constructor
    · intro hnull
      rw [if_pos (show s.logPtr = none from hnull)]
      exact tests_move hall .allocating
    · intro hnull
      rw [if_neg (show ¬ s.logPtr = none from hnull)]
      exact tests_move hall .returning
  | new i a =>
    obtain rfl := Exec.pure_inj.mp hs
    refine ⟨False.elim, fun _ => ?_⟩
    -- the `Log` is no longer to be created, but has been created
    have hmove := tests_move hall.1 (.storing a)
    simp only [tests, move, allocates, List.length_append, List.length_singleton] at hmove ⊢
    omega
  | store i a =>
    obtain rfl := Exec.pure_inj.mp hs
    exact ⟨False.elim, fun _ => tests_move hall .returning⟩
  | ret i =>
    rw [exec] at hs
    split at hs
    · exact absurd hs.symm (Exec.pure_ne_throw _ _)
    · obtain rfl := Exec.pure_inj.mp hs
      exact ⟨False.elim, fun _ => tests_move hall .idle⟩

theorem sound_create (n : ℕ) : (create n).Sound where
  stored := nofun
  storing := fun a ha => by simp [create] at ha
  returned := nofun
  tested := fun h => by simp [create] at h
  creating_eq := fun _ => by simp [tests, creating, create, allocates, creates]

/-- A thread that moves on, neither to an assignment nor to the end of the call. -/
theorem Sound.move (h : s.Sound) (hi : s.threads[i]? = some p)
    (hstoring : ∀ a, q = .storing a → a ∈ s.created) (htested : q = .returning → s.logPtr ≠ none)
    (hcreating : s.logPtr = none → creates q + allocates p = creates p + allocates q) :
    (s.move i q).Sound where
  stored := h.stored
  storing := fun a ha => by
    by_cases hq : .storing a = q
    · exact hstoring a hq.symm
    · exact h.storing a (WaitSet.mem_of_mem_move ha hq)
  returned := h.returned
  tested := fun hr => by
    by_cases hq : .returning = q
    · exact htested hq.symm
    · exact h.tested (WaitSet.mem_of_mem_move hr hq)
  creating_eq := fun hnull => by
    have heq := h.creating_eq hnull
    have hpq := hcreating hnull
    have htests := tests_move hi q
    have hcreate := creating_move hi q
    omega

theorem Sound.step (h : s.Sound) (hall : s.Allowed a) (hs : s.exec a = pure s') : s'.Sound := by
  cases a with
  | call i =>
    obtain rfl := Exec.pure_inj.mp hs
    exact h.move hall nofun nofun fun _ => rfl
  | test i =>
    obtain rfl := Exec.pure_inj.mp hs
    split_ifs with hnull
    · exact h.move hall nofun nofun fun _ => rfl
    · exact h.move hall nofun (fun _ => hnull) fun hnone => absurd hnone hnull
  | new i a =>
    have htests := (tests_step hall hs).2 not_false
    obtain rfl := Exec.pure_inj.mp hs
    have hcreating := creating_move hall.1 (.storing a)
    refine ⟨fun b hb => List.mem_append_left _ (h.stored b hb), fun b hb => ?_,
      fun b hb => List.mem_append_left _ (h.returned b hb),
      fun hr => h.tested (WaitSet.mem_of_mem_move hr nofun), fun hnull => ?_⟩
    · by_cases hba : b = a
      · simp [hba]
      · have hb := h.storing b (WaitSet.mem_of_mem_move hb fun heq => hba (by cases heq; rfl))
        exact List.mem_append_left _ hb
    · rw [htests, h.creating_eq hnull]
      exact (Nat.add_right_cancel hcreating).symm
  | store i a =>
    -- the pointer is not null any more, so that nothing is said about the tests
    obtain rfl := Exec.pure_inj.mp hs
    refine ⟨?_, fun b hb => h.storing b (WaitSet.mem_of_mem_move hb nofun), h.returned,
      fun _ => nofun, nofun⟩
    rintro b ⟨⟩
    exact h.storing a (List.mem_of_getElem? hall)
  | ret i =>
    rw [exec] at hs
    split at hs
    · exact absurd hs.symm (Exec.pure_ne_throw _ _)
    · rename_i a hptr
      obtain rfl := Exec.pure_inj.mp hs
      have hidle : (s.move i .idle).Sound := h.move hall nofun nofun fun _ => rfl
      refine ⟨hidle.stored, hidle.storing, fun b hb => ?_, hidle.tested, hidle.creating_eq⟩
      rcases List.mem_append.mp hb with hb | hb
      · exact h.returned b hb
      · rw [List.mem_singleton.mp hb]
        exact h.stored a hptr

/-- Every step that a thread has come to can be taken: no call dereferences a null pointer. -/
theorem Sound.returns (h : s.Sound) (hall : s.Allowed a) : ∃ s', s.exec a = pure s' := by
  cases a with
  | ret i =>
    obtain ⟨b, hb⟩ := Option.ne_none_iff_exists'.mp (h.tested (List.mem_of_getElem? hall))
    exact ⟨_, by rw [exec, hb]⟩
  | _ => exact ⟨_, rfl⟩

/-- Where at most one test has found a null pointer, there is at most one `Log`. -/
theorem Sound.oneLog (h : s.Sound) (htests : s.tests ≤ 1) : s.OneLog := by
  have hlen : s.created.length ≤ 1 := (Nat.le_add_left _ _).trans htests
  refine ⟨hlen, fun a ha => ?_⟩
  obtain ⟨b, hb⟩ := List.length_eq_one_iff.mp
    (le_antisymm hlen (List.length_pos_of_mem (h.returned a ha)))
  have hab := h.returned a ha
  rw [hb] at hab ⊢
  rw [List.mem_singleton.mp hab]

/-! ### Every run -/

theorem run_sound (h : (program n).lts.Run (create n) l s) : ∀ t ∈ Lts.visited l s, t.Sound :=
  h.invariant (sound_create n) fun _ _ _ hsound hstep => hsound.step hstep.1 hstep.2

/-- No step takes back a test. -/
theorem tests_le (s : LogWorld) (a : Act) (s' : LogWorld) (h : (program n).lts.step s a s') :
    s.tests ≤ s'.tests := by
  have htests := tests_step h.1 h.2
  by_cases hnull : s.FindsNull a
  · exact (htests.1 hnull).ge.trans' (Nat.le_succ _)
  · exact (htests.2 hnull).ge

/-- In a run that is not disturbed, at most one test finds a null pointer. -/
theorem run_tests_le (h : (program n).lts.Run (create n) l s)
    (hl : ∀ p ∈ l, p.1.Undisturbed p.2) : ∀ t ∈ Lts.visited l s, t.tests ≤ 1 := by
  refine h.invariant (by simp [tests, create, allocates]) ?_
  intro p hp t hle hstep
  have htests := tests_step hstep.1 hstep.2
  -- the only test that counts comes when no thread is creating, so there was none before
  by_cases hnull : p.1.FindsNull p.2
  · have hsound := run_sound h p.1 (Lts.mem_visited hp s)
    rw [htests.1 hnull, hsound.creating_eq hnull.logPtr_eq, hl p hp hnull]
  · rwa [htests.2 hnull]

/-- **When there is only one `Log`**: if each test that finds a null pointer is undisturbed, then in
every state of a run there is at most one `Log`, and every call returns it; and if all calls have
returned at the end, the tests must have been undisturbed for that. -/
theorem run_oneLog_iff (h : (program n).lts.Run (create n) l s) :
    ((∀ p ∈ l, p.1.Undisturbed p.2) →
        ∀ t ∈ Lts.visited l s, t.OneLog ∧ ∀ a, t.Allowed a → ∃ t', t.exec a = pure t') ∧
      ((∀ p ∈ s.threads, p = .idle) → (∀ t ∈ Lts.visited l s, t.OneLog) →
        ∀ p ∈ l, p.1.Undisturbed p.2) := by
  have hsound := run_sound h
  constructor
  · intro hl t ht
    exact ⟨(hsound t ht).oneLog (run_tests_le h hl t ht), fun a hall => (hsound t ht).returns hall⟩
  · intro hidle hone p hp hnull
    obtain ⟨t, hstep, hle⟩ := h.next_le tests_le hp
    -- all calls have returned: each test that has found a null pointer has created its `Log`
    have hlast : s.tests = s.created.length := by
      have hzero : (s.threads.map allocates).sum = 0 := by
        refine List.sum_eq_zero fun k hk => ?_
        obtain ⟨q, hq, rfl⟩ := List.mem_map.mp hk
        rw [hidle q hq]
        rfl
      rw [tests, hzero, Nat.zero_add]
    have hnext := (tests_step hstep.1 hstep.2).1 hnull
    have hcreating := (hsound p.1 (Lts.mem_visited hp s)).creating_eq hnull.logPtr_eq
    have hlen := (hone s (Lts.last_mem_visited l s)).1
    omega

/-- Two threads, one after the other. -/
theorem run_oneLog_iff_two : ∃ l s, (program 2).lts.Run (create 2) l s ∧ s.returned = [7, 7] ∧
    ∀ t ∈ Lts.visited l s, t.OneLog ∧ ∀ a, t.Allowed a → ∃ t', t.exec a = pure t' := by
  have hrun := Lts.Run.of_trace (M := (program 2).lts) (f := (program 2).tryStep)
    Program.tryStep_step (s := create 2)
    (l := [.call 0, .call 1, .test 0, .new 0 7, .store 0 7, .test 1, .ret 1, .ret 0]) rfl
  exact ⟨_, _, hrun, rfl, (run_oneLog_iff hrun).1 (by decide)⟩

/-- Two threads that both test before one of them has stored its `Log`. -/
theorem not_run_oneLog :
    ¬ ∀ n l s, (program n).lts.Run (create n) l s → ∀ t ∈ Lts.visited l s, t.OneLog := by
  intro h
  have hrun := Lts.Run.of_trace (M := (program 2).lts) (f := (program 2).tryStep)
    Program.tryStep_step (s := create 2)
    (l := [.call 0, .call 1, .test 0, .test 1, .new 0 7, .store 0 7, .ret 0, .new 1 8, .store 1 8,
      .ret 1]) rfl
  exact absurd (h 2 _ _ hrun _ (Lts.last_mem_visited _ _)).1 (by decide)

end LogWorld

end Candcpp
