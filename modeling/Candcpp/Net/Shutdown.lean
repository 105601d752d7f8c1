import Candcpp.Thread.ReactorPool

/-!
# Destroying a server with sub-reactors

The constructor and the destructor of the class `Server` of
`project/30days_make_cpp_server/5_main_sub_reactor`, with the threads of its pool, each of
which executes the loop of a sub-reactor.

The constructor puts a task into the pool's queue for each sub-reactor, in order: the task
`c` is the call of `EventLoop::loop` on `subReactors[c]`. The destructor tells the
sub-reactors to quit, deletes them, and deletes the pool, whose destructor joins the threads.

| code | definition |
|---|---|
| the pool | `Candcpp.ReactorPool` |
| `EventLoop::loop`, `Epoll::getActiveChannels` | `Candcpp.Shutdown.execLoop` |
| `Server::~Server` | `Candcpp.Shutdown.destructor` |

A loop looks at `quit` only after `getActiveChannels` has returned, and nothing wakes it
from `epoll_wait`: the destructor deletes the sub-reactors without waiting for the loops.
What it would have to wait for is `Candcpp.Shutdown.Returned`, and with that no thread uses
a sub-reactor, or its `Epoll`, that has been deleted (`Candcpp.Shutdown.run_loopSafe`). Where
`epoll_wait` fails, an exception ends the program.
-/

namespace Candcpp

open Cpp

structure EventLoop where
  quit : Bool
  /-- Its `Epoll` has not been deleted. -/
  epoll : Bool
  /-- The object has not been deleted. -/
  alive : Bool
  deriving DecidableEq, Repr

/-- Where a call of `EventLoop::loop` is. -/
inductive LoopPhase where
  /-- The test `!quit` comes next. -/
  | testing : LoopPhase
  /-- `epoll->getActiveChannels()` comes next. -/
  | calling : LoopPhase
  /-- It waits in `epoll_wait`. -/
  | polling : LoopPhase
  /-- It handles the active channels. -/
  | handling : LoopPhase
  | returned : LoopPhase
  deriving DecidableEq, Repr

namespace LoopPhase

/-- The next step reads the `EventLoop`. -/
def usesLoop : LoopPhase → Bool
  | .testing | .calling => true
  | _ => false

/-- The next step calls, or goes on in, a function of the `Epoll`. -/
def usesEpoll : LoopPhase → Bool
  | .calling | .polling => true
  | _ => false

end LoopPhase

/-- Where the destructor of the server is. -/
inductive ServerDtor where
  /-- It has not been called. -/
  | idle : ServerDtor
  /-- `subReactors[k]->setQuit()` comes next. -/
  | quitting (k : ℕ) : ServerDtor
  /-- `delete subReactors[k]` comes next: its destructor, which deletes the `Epoll`. -/
  | deleting (k : ℕ) : ServerDtor
  /-- The object `subReactors[k]` itself is given back next. -/
  | freeing (k : ℕ) : ServerDtor
  /-- It is in `delete threadPool`. -/
  | joining : ServerDtor
  deriving DecidableEq, Repr

structure Shutdown where
  pool : ReactorPool
  subReactors : List EventLoop
  /-- Where each thread of the pool is in the task that it executes. -/
  phase : ℕ → LoopPhase
  dtor : ServerDtor

namespace Shutdown

/-! ### The code -/

/-- The server before the constructor has put the first task into the queue. -/
def create (size : ℕ) : Shutdown where
  pool := .create size
  subReactors := List.replicate size { quit := false, epoll := true, alive := true }
  phase := fun _ => .testing
  dtor := .idle

/-- The sub-reactor `k`, which must not have been deleted. -/
def eventLoop (s : Shutdown) (k : ℕ) : Exec EventLoop :=
  match s.subReactors[k]? with
  | some l => if l.alive then pure l else throw .dangling
  | none => throw .outOfRange

/-- The `Epoll` of the sub-reactor `k` is used. -/
def useEpoll (s : Shutdown) (k : ℕ) : Exec Unit :=
  match s.subReactors[k]? with
  | some l => if l.epoll then pure () else throw .dangling
  | none => throw .outOfRange

/-- The thread `i` gets to `p`. -/
def go (s : Shutdown) (i : ℕ) (p : LoopPhase) : Shutdown :=
  { s with phase := Function.update s.phase i p }

/-- The next step of the thread `i`, which is in the loop of the sub-reactor `k`. -/
def execLoop (s : Shutdown) (i k : ℕ) : LoopPhase → Exec Shutdown
  | .testing => do
    let l ← s.eventLoop k
    pure (s.go i (if l.quit then .returned else .calling))
  | .calling => do
    let _ ← s.eventLoop k
    s.useEpoll k
    pure (s.go i .polling)
  | .polling => do
    s.useEpoll k
    pure (s.go i .handling)
  | .handling => pure (s.go i .testing)
  | .returned => pure s

/-- The next step of the destructor. -/
def destructor (s : Shutdown) : ServerDtor → Exec Shutdown
  | .idle => pure { s with dtor := .quitting 0 }
  | .quitting k =>
    if k < s.subReactors.length then do
      let l ← s.eventLoop k
      pure
        { s with
          subReactors := s.subReactors.set k { l with quit := true }
          dtor := .quitting (k + 1) }
    else
      pure { s with dtor := .deleting 0 }
  | .deleting k =>
    if k < s.subReactors.length then do
      let l ← s.eventLoop k
      pure
        { s with
          subReactors := s.subReactors.set k { l with epoll := false }
          dtor := .freeing k }
    else
      pure { s with dtor := .joining }
  | .freeing k => do
    let l ← s.eventLoop k
    pure
      { s with
        subReactors := s.subReactors.set k { l with alive := false }
        dtor := .deleting (k + 1) }
  | .joining => pure s

/-! ### The program -/

/-- Who takes a step. -/
inductive Act where
  /-- A step of the pool: of its threads between two tasks, or of a call of its functions. -/
  | pool (a : ReactorPool.Act) : Act
  /-- The thread `i` goes on in a loop. -/
  | loop (i : ℕ) : Act
  /-- The destructor of the server goes on. -/
  | destructor : Act
  deriving DecidableEq, Repr

/-- A thread that takes a task is at the beginning of it. -/
def begin (s : Shutdown) : ReactorPool.Act → ℕ → LoopPhase
  | .worker i => Function.update s.phase i .testing
  | _ => s.phase

def exec (s : Shutdown) : Act → Exec Shutdown
  | .pool a =>
    match s.pool.step a with
    | some pool => pure { s with pool := pool, phase := s.begin a }
    | none => pure s
  | .loop i =>
    match s.pool.queue.workers[i]? with
    | some (.running k) => s.execLoop i k (s.phase i)
    | _ => pure s
  | .destructor => s.destructor s.dtor

/-- The constructor has put the last of its tasks so far into the queue. -/
def added (s : Shutdown) : Bool := s.pool.callers.all (· = .returned)

/-- **What the server asks of its pool**, and when: the constructor adds one task after the
other, a task is over when its loop has returned, the destructor of the pool runs at the end. -/
def AllowedPool (s : Shutdown) : ReactorPool.Act → Prop
  | .call =>
    s.dtor = .idle ∧ s.added = true ∧ s.pool.callers.length < s.subReactors.length
  | .finish i => s.phase i = .returned
  | .destroy | .destructor => s.dtor = .joining
  | _ => True

/-- What may happen next. -/
def Allowed (s : Shutdown) : Act → Prop
  | .pool a => s.AllowedPool a ∧ (s.pool.step a).isSome = true
  | .loop _ => True
  | .destructor =>
    s.dtor = .idle → s.added = true ∧ s.pool.callers.length = s.subReactors.length

instance (s : Shutdown) : (a : ReactorPool.Act) → Decidable (s.AllowedPool a)
  | .call => inferInstanceAs (Decidable (_ ∧ _))
  | .finish _ => inferInstanceAs (Decidable (_ = _))
  | .destroy | .destructor => inferInstanceAs (Decidable (_ = _))
  | .worker _ | .addTask _ | .notify _ _ | .wakeWorker _ => inferInstanceAs (Decidable True)

instance (s : Shutdown) : (a : Act) → Decidable (s.Allowed a)
  | .pool _ => inferInstanceAs (Decidable (_ ∧ _))
  | .loop _ => inferInstanceAs (Decidable True)
  | .destructor => inferInstanceAs (Decidable (_ → _))

/-- The runs of a server with `size` sub-reactors. -/
def program (size : ℕ) : Program Shutdown Act where
  init := fun s => s = create size
  allowed := Allowed
  exec := exec

instance (size : ℕ) (s : Shutdown) (a : Act) : Decidable ((program size).allowed s a) :=
  inferInstanceAs (Decidable (s.Allowed a))

/-! ### What is to be shown -/

/-- **The loop of the sub-reactor `k` has returned**: a thread has taken the task, and is not
in the loop any more. -/
def Returned (s : Shutdown) (k : ℕ) : Prop :=
  k ∈ s.pool.queue.dequeued ∧ ∀ i < s.pool.queue.workers.length,
    s.pool.queue.workers[i]? = some (.running k) → s.phase i = .returned

/-- The destructor deletes a sub-reactor only after its loop has returned. -/
def Awaited (s : Shutdown) : Act → Prop
  | .destructor => ∀ k < s.subReactors.length, s.dtor = .deleting k → s.Returned k
  | _ => True

instance (s : Shutdown) (k : ℕ) : Decidable (s.Returned k) :=
  inferInstanceAs (Decidable (_ ∧ ∀ i < _, _ → _))

instance (s : Shutdown) : (act : Act) → Decidable (s.Awaited act)
  | .pool _ => inferInstanceAs (Decidable True)
  | .loop _ => inferInstanceAs (Decidable True)
  | .destructor => inferInstanceAs (Decidable (∀ k < _, _ → _))

/-- **No thread of the pool uses a sub-reactor, or its `Epoll`, that has been deleted**: the
one on whose loop it is. -/
def Safe (s : Shutdown) : Prop :=
  ∀ i k, s.pool.queue.workers[i]? = some (.running k) → ∃ l, s.subReactors[k]? = some l ∧
    ((s.phase i).usesLoop = true → l.alive = true) ∧
    ((s.phase i).usesEpoll = true → l.epoll = true)

variable {s s' : Shutdown} {n k : ℕ}

/-- **Where the server is safe the loops go on**: no step of a thread is a fault. -/
theorem Safe.returns (h : s.Safe) (i : ℕ) : ∃ s', s.exec (.loop i) = pure s' := by
  rw [exec]
  split
  · rename_i k hi
    obtain ⟨l, hl, halive, hepoll⟩ := h i k hi
    have hloop : (s.phase i).usesLoop = true → s.eventLoop k = pure l := by
      intro hp
      rw [eventLoop, hl]
      exact if_pos (halive hp)
    have huse : (s.phase i).usesEpoll = true → s.useEpoll k = pure () := by
      intro hp
      rw [useEpoll, hl]
      exact if_pos (hepoll hp)
    rcases hphase : s.phase i <;> rw [hphase] at hloop huse <;> rw [execLoop]
    · rw [hloop rfl, pure_bind]
      exact ⟨_, rfl⟩
    · rw [hloop rfl, pure_bind, huse rfl, pure_bind]
      exact ⟨_, rfl⟩
    · rw [huse rfl, pure_bind]
      exact ⟨_, rfl⟩
    · exact ⟨_, rfl⟩
    · exact ⟨_, rfl⟩
  · exact ⟨s, rfl⟩

/-! ### The invariant -/

/-- **The invariant of a server** whose pool has `n` threads, in a run in which the
destructor waits for the loops. -/
structure Inv (n : ℕ) (s : Shutdown) : Prop where
  pool : ReactorPool.Inv n s.pool
  calls : s.pool.callers.length ≤ s.subReactors.length
  /-- What has been deleted is not needed any more. -/
  deleted : ∀ k l, s.subReactors[k]? = some l → l.alive = false ∨ l.epoll = false → s.Returned k
  freeing : ∀ k, s.dtor = .freeing k → ∃ l, s.subReactors[k]? = some l ∧ l.epoll = false

theorem inv_create (size : ℕ) : Inv size (create size) where
  pool := ReactorPool.inv_create size
  calls := Nat.zero_le _
  deleted := by
    intro k l hk hl
    obtain rfl := List.eq_of_mem_replicate (List.mem_of_getElem? hk)
    rcases hl with hl | hl <;> cases hl
  freeing := by
    rintro k ⟨⟩

/-- A loop that has returned is not entered again, by whatever the pool does. -/
theorem Returned.pool (h : s.Returned k) (hinv : Inv n s) {a : ReactorPool.Act}
    {pool : ReactorPool} (hs : s.pool.step a = some pool) :
    Returned { s with pool := pool, phase := s.begin a } k := by
  obtain ⟨hk, honly⟩ := hinv.pool.onward hs k h.1
  refine ⟨hk, fun i _ hi => ?_⟩
  have hold := honly i hi
  have hphase : s.begin a i = s.phase i := by
    cases a with
    | worker j =>
      -- the thread that looks at the queue is in no loop
      refine Function.update_of_ne ?_ _ _
      rintro rfl
      rw [ReactorPool.locking_of_worker hs] at hold
      cases hold
    | _ => rfl
  exact hphase.trans (h.2 i (List.getElem?_eq_some_iff.mp hold).1 hold)

/-- A step of the pool. -/
theorem Inv.poolStep (h : Inv n s) {a : ReactorPool.Act} (hall : s.AllowedPool a)
    (hs : s.exec (.pool a) = pure s') : Inv n s' := by
  rw [exec] at hs
  split at hs
  · rename_i pool hstep
    obtain rfl := Exec.pure_inj.mp hs
    have hcalls : pool.callers.length ≤ s.subReactors.length := by
      by_cases ha : a = .call
      · subst ha
        obtain rfl := Option.some.inj hstep
        change (s.pool.callers ++ [_]).length ≤ _
        rw [List.length_append, List.length_singleton]
        exact hall.2.2
      · rw [ReactorPool.length_callers hstep ha]
        exact h.calls
    exact ⟨h.pool.step hstep, hcalls, fun k l hk hl => (h.deleted k l hk hl).pool h hstep,
      h.freeing⟩
  · exact Exec.pure_inj.mp hs ▸ h

/-- A thread goes on in a loop. -/
theorem Inv.go (h : Inv n s) {i : ℕ} (hi : s.pool.queue.workers[i]? = some (.running k))
    (hphase : s.phase i ≠ .returned) (p : LoopPhase) : Inv n (s.go i p) := by
  refine { h with deleted := fun k' l hk hl => ?_ }
  have hreturned := h.deleted k' l hk hl
  refine ⟨hreturned.1, fun j hj hrunning => ?_⟩
  have hold := hreturned.2 j hj hrunning
  refine (Function.update_of_ne ?_ _ _).trans hold
  rintro rfl
  exact hphase hold

theorem Inv.loop (h : Inv n s) {i : ℕ} (hi : s.pool.queue.workers[i]? = some (.running k))
    (hs : s.execLoop i k (s.phase i) = pure s') : Inv n s' := by
  have hgo := h.go hi
  rcases hphase : s.phase i <;> rw [hphase] at hs hgo <;> rw [execLoop] at hs
  · obtain ⟨l, -, hs⟩ := Exec.bind_eq_pure.mp hs
    exact Exec.pure_inj.mp hs ▸ hgo (by rintro ⟨⟩) _
  · obtain ⟨l, -, hs⟩ := Exec.bind_eq_pure.mp hs
    obtain ⟨-, -, hs⟩ := Exec.bind_eq_pure.mp hs
    exact Exec.pure_inj.mp hs ▸ hgo (by rintro ⟨⟩) _
  · obtain ⟨-, -, hs⟩ := Exec.bind_eq_pure.mp hs
    exact Exec.pure_inj.mp hs ▸ hgo (by rintro ⟨⟩) _
  · exact Exec.pure_inj.mp hs ▸ hgo (by rintro ⟨⟩) _
  · exact Exec.pure_inj.mp hs ▸ h

/-- **A sub-reactor is changed**: it is not deleted before its loop has returned. -/
theorem Inv.set (h : Inv n s) {l l' : EventLoop} (hl : s.subReactors[k]? = some l)
    (hdeleted : l'.alive = false ∨ l'.epoll = false → s.Returned k) {dtor : ServerDtor}
    (hfreeing : ∀ j, dtor = .freeing j → j = k ∧ l'.epoll = false) :
    Inv n { s with subReactors := s.subReactors.set k l', dtor := dtor } := by
  refine ⟨h.pool, ?_, ?_, ?_⟩
  · change _ ≤ (s.subReactors.set k l').length
    rw [List.length_set]
    exact h.calls
  · intro j m hj hm
    rcases WaitSet.getElem?_move hj with ⟨rfl, rfl⟩ | ⟨-, hj⟩
    · exact hdeleted hm
    · exact h.deleted j m hj hm
  · intro j hj
    obtain ⟨rfl, hepoll⟩ := hfreeing j hj
    exact ⟨l', WaitSet.getElem?_moved hl l', hepoll⟩

theorem getElem?_of_eventLoop {l : EventLoop} (h : s.eventLoop k = pure l) :
    s.subReactors[k]? = some l ∧ l.alive = true := by
  rw [eventLoop] at h
  split at h
  · rename_i m hm
    split at h
    · rename_i halive
      exact Exec.pure_inj.mp h ▸ ⟨hm, halive⟩
    · exact absurd h.symm (Exec.pure_ne_throw _ _)
  · exact absurd h.symm (Exec.pure_ne_throw _ _)

/-- The destructor goes on. -/
theorem Inv.destructor (h : Inv n s) (hawaited : s.Awaited .destructor)
    (hs : s.destructor s.dtor = pure s') : Inv n s' := by
  have hmove : ∀ dtor, (∀ k, dtor ≠ .freeing k) → Inv n { s with dtor := dtor } :=
    fun _ hdtor => { h with freeing := fun k hk => absurd hk (hdtor k) }
  rcases hdtor : s.dtor with _ | k | k | k | _ <;> rw [hdtor] at hs <;>
    rw [Shutdown.destructor] at hs
  · exact Exec.pure_inj.mp hs ▸ hmove (.quitting 0) (by rintro k ⟨⟩)
  · split at hs
    · obtain ⟨l, hl, hs⟩ := Exec.bind_eq_pure.mp hs
      obtain ⟨hl, -⟩ := getElem?_of_eventLoop hl
      obtain rfl := Exec.pure_inj.mp hs
      refine h.set hl ?_ ?_
      · exact h.deleted k l hl
      · rintro j ⟨⟩
    · exact Exec.pure_inj.mp hs ▸ hmove (.deleting 0) (by rintro k ⟨⟩)
  · split at hs
    · rename_i hlt
      obtain ⟨l, hl, hs⟩ := Exec.bind_eq_pure.mp hs
      obtain ⟨hl, -⟩ := getElem?_of_eventLoop hl
      obtain rfl := Exec.pure_inj.mp hs
      refine h.set hl (fun _ => hawaited k hlt hdtor) ?_
      rintro j ⟨⟩
      exact ⟨rfl, rfl⟩
    · exact Exec.pure_inj.mp hs ▸ hmove .joining (by rintro k ⟨⟩)
  · -- the `Epoll` has been deleted, so the loop has returned
    obtain ⟨l, hl, hs⟩ := Exec.bind_eq_pure.mp hs
    obtain ⟨hl, -⟩ := getElem?_of_eventLoop hl
    obtain rfl := Exec.pure_inj.mp hs
    obtain ⟨m, hm, hepoll⟩ := h.freeing k hdtor
    refine h.set hl (fun _ => h.deleted k m hm (Or.inr hepoll)) ?_
    rintro j ⟨⟩
  · exact Exec.pure_inj.mp hs ▸ h

/-- **Every step keeps the invariant**, if the destructor waits for the loops. -/
theorem Inv.step (h : Inv n s) {act : Act} (hall : s.Allowed act) (hawaited : s.Awaited act)
    (hs : s.exec act = pure s') : Inv n s' := by
  cases act with
  | pool a => exact h.poolStep hall.1 hs
  | loop i =>
    rw [exec] at hs
    split at hs
    · rename_i k hi
      exact h.loop hi hs
    · exact Exec.pure_inj.mp hs ▸ h
  | destructor => exact h.destructor hawaited hs

theorem Inv.safe (h : Inv n s) : s.Safe := by
  intro i k hi
  have hcaller := (h.pool.fed k).mp (h.pool.consumers.inv.accepted_of_running hi)
  obtain ⟨p, hp, -⟩ := Option.map_eq_some_iff.mp hcaller
  have hlt : k < s.subReactors.length := (List.getElem?_eq_some_iff.mp hp).1.trans_le h.calls
  have hreturned : s.Returned k → s.phase i = .returned := fun hk =>
    hk.2 i (List.getElem?_eq_some_iff.mp hi).1 hi
  have hdeleted := h.deleted k _ (List.getElem?_eq_getElem hlt)
  refine ⟨_, List.getElem?_eq_getElem hlt, fun hp => ?_, fun hp => ?_⟩
  · by_contra hdead
    rw [hreturned (hdeleted (Or.inl (Bool.not_eq_true _ ▸ hdead)))] at hp
    cases hp
  · by_contra hdead
    rw [hreturned (hdeleted (Or.inr (Bool.not_eq_true _ ▸ hdead)))] at hp
    cases hp

/-! ### Every run -/

/-- **No thread uses a sub-reactor that has been deleted**, in every run in which the
destructor deletes each of them only after its loop has returned. -/
theorem run_loopSafe {size : ℕ} {l : List (Shutdown × Act)}
    (hl : (program size).lts.Run (create size) l s) (hawaited : ∀ p ∈ l, p.1.Awaited p.2) :
    ∀ t ∈ Lts.visited l s, t.Safe := by
  intro t ht
  refine Inv.safe (n := size) (hl.invariant (I := Inv size) (inv_create size) ?_ t ht)
  intro p hp t hinv hstep
  exact hinv.step hstep.1 (hawaited p hp) hstep.2

/-- The only loop is told to quit, is woken by an event, and has returned when its
sub-reactor is deleted. -/
theorem run_loopSafe_one : ∃ l s, (program 1).lts.Run (create 1) l s ∧ s.dtor = .joining ∧
    ∀ t ∈ Lts.visited l s, t.Safe := by
  have hrun := Lts.Run.of_trace (M := (program 1).lts) (f := (program 1).tryStep)
    Program.tryStep_step (s := create 1)
    (l := [.pool .call, .pool (.addTask 0), .pool (.notify 0 none), .pool (.worker 0), .loop 0,
      .loop 0, .destructor, .destructor, .loop 0, .loop 0, .loop 0, .destructor, .destructor,
      .destructor, .destructor]) rfl
  exact ⟨_, _, hrun, rfl, run_loopSafe hrun (by decide)⟩

/-- The only sub-reactor is deleted while its thread waits in `epoll_wait`. -/
theorem not_loopSafe : ¬∀ size s, (program size).Reachable s → s.Safe := by
  intro h
  have hinit : (program 1).Reachable (create 1) := .init rfl
  have hrun := hinit.foldlM Program.tryStep_step
    (l := [.pool .call, .pool (.addTask 0), .pool (.notify 0 none), .pool (.worker 0), .loop 0,
      .loop 0, .destructor, .destructor, .destructor, .destructor, .destructor]) rfl
  obtain ⟨l, hl, -, hepoll⟩ := h 1 _ hrun 0 0 rfl
  obtain rfl := Option.some.inj hl
  cases hepoll rfl

end Shutdown

end Candcpp
