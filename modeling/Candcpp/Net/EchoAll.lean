import Candcpp.Net.MainSubReactorRuns

/-!
# Writing to all clients while some of them leave

`Server::echoAll` walks through the map of the connections, in the thread of the main
reactor, and the sub-reactors go on meanwhile. Each of them may erase an entry between any
two steps of the loop.

The walk is safe as long as no sub-reactor erases the entry at which the iterator stands
(`Candcpp.MainSubReactor.Undisturbed`): erasing any other entry neither invalidates the
iterator nor lets the loop miss a client, and a connection with an entry has not been
deleted. This is `Candcpp.MainSubReactor.run_echoAll`.
-/

namespace Candcpp

open Cpp OrderedMap

namespace MainSubReactor

/-! ### What is to be shown -/

/-- The key of the entry that a step erases. -/
def erasing (s : MainSubReactor) : Act → Option ℕ
  | .reactor r _ =>
    match s.reactors[r]? with
    | some { events := _, call := some (.found a _) } => s.server.objects[a]?.map Connection.fd
    | _ => none
  | _ => none

/-- The iterator of `echoAll` does not stand at the entry that a step erases. -/
def Undisturbed (s : MainSubReactor) (act : Act) : Prop :=
  s.main.iterator = none ∨ s.erasing act ≠ s.main.iterator

instance (s : MainSubReactor) (act : Act) : Decidable (s.Undisturbed act) :=
  inferInstanceAs (Decidable (_ ∨ _))

/-- **`echoAll` is safe in a state**: the entry at its iterator has not been erased, the
connection it is about to write to has not been deleted, and at the end of the loop it has
written once to every client that has been connected throughout. -/
structure EchoAllSafe (s : MainSubReactor) : Prop where
  iterator : ∀ k, s.main.iterator = some k → k ∈ s.server.connections.keys
  live : ∀ k conn, s.main = .writing k conn → ∃ a c, conn = some a ∧ s.server.Live a c ∧ c.fd = k
  once : s.main = .visiting ⊤ → ∀ k ∈ s.connected, s.written.count k = 1

variable {s s' : MainSubReactor} {m : MainReactor}

/-- **Where `echoAll` is safe it goes on**: the next access to the iterator or the connection
is no fault. -/
theorem EchoAllSafe.returns (h : EchoAllSafe s) {k : ℕ} (hk : s.main.iterator = some k) :
    ∃ s', s.exec .main = pure s' := by
  have hkeys := h.iterator k hk
  rw [OrderedMap.mem_keys] at hkeys
  obtain ⟨conn, hval⟩ := Option.ne_none_iff_exists'.mp hkeys
  rw [exec]
  generalize hmain : s.main = m at hk
  cases m with
  | polling | constructed | entered => cases hk
  | visiting iter =>
    cases iter with
    | top => cases hk
    | coe iter =>
      obtain rfl : iter = k := Option.some.inj hk
      have hexec := execMain_visiting s iter
      rw [hval] at hexec
      exact ⟨_, hexec⟩
  | writing iter conn =>
    obtain ⟨a, c, rfl, hc, -⟩ := h.live iter conn hmain
    rw [execMain, hc.read, pure_bind]
    exact ⟨_, rfl⟩
  | advancing iter =>
    obtain rfl := Option.some.inj hk
    rw [execMain, hval]
    exact ⟨_, rfl⟩

/-! ### The invariant of the loop -/

/-- Where the loop has got. -/
def LoopOk (s : MainSubReactor) : MainReactor → Prop
  | .visiting iter =>
    Walk s.server.connections s.connected iter s.written ∧
      ∀ k : ℕ, iter = k → k ∈ s.server.connections.keys
  | .writing iter conn =>
    Walk s.server.connections s.connected iter s.written ∧
      s.server.connections.val iter = some conn
  | .advancing iter =>
    iter ∈ s.server.connections.keys ∧
      ∃ seen, s.written = seen ++ [iter] ∧ Walk s.server.connections s.connected iter seen
  | _ => True

theorem LoopOk.iterator (h : LoopOk s m) {k : ℕ} (hk : m.iterator = some k) :
    k ∈ s.server.connections.keys := by
  match m, h, hk with
  | .visiting (iter : ℕ), h, hk => exact h.2 k (congrArg _ (Option.some.inj hk))
  | .writing iter conn, h, hk => exact Option.some.inj hk ▸ mem_keys_of_val h.2
  | .advancing iter, h, hk => exact Option.some.inj hk ▸ h.1

/-- **Frame**: the loop does not notice what happens to other entries than the one at its
iterator. -/
theorem LoopOk.change (h : LoopOk s m) {server : Server} (reactors : List SubReactor)
    (hval : ∀ k, m.iterator = some k →
      server.connections.val k = s.server.connections.val k) :
    LoopOk
      { s with
        server := server
        reactors := reactors
        connected := s.connected ∩ server.connections.keys } m := by
  have hkeys : ∀ k, m.iterator = some k → k ∈ server.connections.keys := by
    intro k hk
    rw [OrderedMap.mem_keys, hval k hk, ← OrderedMap.mem_keys]
    exact h.iterator hk
  have hwalk : ∀ {iter seen}, Walk s.server.connections s.connected iter seen →
      Walk server.connections (s.connected ∩ server.connections.keys) iter seen :=
    fun h => h.change Finset.inter_subset_left Finset.inter_subset_right
  cases m with
  | visiting iter =>
    refine ⟨hwalk h.1, ?_⟩
    rintro k rfl
    exact hkeys k rfl
  | writing iter conn => exact ⟨hwalk h.1, (hval iter rfl).trans h.2⟩
  | advancing iter =>
    obtain ⟨-, seen, hseen, h⟩ := h
    exact ⟨hkeys iter rfl, seen, hseen, hwalk h⟩
  | _ => trivial

/-- The main reactor goes on. -/
theorem LoopOk.main (h : LoopOk s s.main) (hinv : Inv s) (hs : s.execMain s.main = pure s') :
    LoopOk s' s'.main := by
  generalize hmain : s.main = m at h hs
  match m, h, hs with
  | .polling, h, hs =>
    obtain rfl := Exec.pure_inj.mp hs
    rw [hmain]
    exact h
  | .constructed a, _, hs =>
    obtain ⟨server, -, hs⟩ := Exec.bind_eq_pure.mp hs
    obtain rfl := Exec.pure_inj.mp hs
    trivial
  | .entered a, _, hs =>
    obtain ⟨server, -, hs⟩ := Exec.bind_eq_pure.mp hs
    obtain rfl := Exec.pure_inj.mp hs
    trivial
  | .visiting ⊤, _, hs =>
    obtain rfl := Exec.pure_inj.mp hs
    trivial
  | .visiting (iter : ℕ), h, hs =>
    rw [execMain_visiting] at hs
    split at hs
    · rename_i conn hval
      obtain rfl := Exec.pure_inj.mp hs
      exact ⟨h.1, hval⟩
    · exact absurd hs.symm (Exec.pure_ne_throw _ _)
  | .writing _ none, _, hs => exact absurd hs.symm (Exec.pure_ne_throw _ _)
  | .writing iter (some conn), h, hs =>
    rw [execMain] at hs
    obtain ⟨c, hc, hs⟩ := Exec.bind_eq_pure.mp hs
    obtain rfl := Exec.pure_inj.mp hs
    -- the connection at the iterator is the one of the key that has been looked up
    obtain ⟨d, hd, rfl⟩ := hinv.ok.entries h.2
    obtain rfl := hd.inj (Server.live_of_read hc)
    exact ⟨mem_keys_of_val h.2, s.written, rfl, h.1⟩
  | .advancing iter, h, hs =>
    rw [execMain] at hs
    split at hs
    · obtain rfl := Exec.pure_inj.mp hs
      obtain ⟨-, seen, hseen, hwalk⟩ := h
      refine ⟨?_, fun k hk => (mem_of_next hk).1⟩
      change Walk _ _ _ s.written
      rw [hseen]
      exact hwalk.advance
    · exact absurd hs.symm (Exec.pure_ne_throw _ _)

/-- A sub-reactor goes on, and does not erase the entry at the iterator. -/
theorem LoopOk.reactor (h : LoopOk s s.main) (hinv : Inv s) {r : ℕ} {n : ReadResult}
    (hund : s.Undisturbed (.reactor r n)) {this : SubReactor} (hr : s.reactors[r]? = some this)
    (hs : s.execReactor r n this = pure s') : LoopOk s' s'.main := by
  obtain ⟨events, call⟩ := this
  match events, call, hr, hs with
  | events, some call, hr, hs =>
    obtain ⟨⟨after, server⟩, hecho, hs⟩ := Exec.bind_eq_pure.mp hs
    obtain rfl := Exec.pure_inj.mp hs
    refine h.change _ fun k hk => ?_
    rcases hinv.echo_cases hr hecho with
      ⟨rfl, -⟩ | ⟨a, c, rfl, -, hc, -, rfl⟩ | ⟨a, c, -, -, -, -, -, rfl⟩
    · rfl
    · refine Map.erase_of_ne _ ?_
      rintro rfl
      have herasing : s.erasing (.reactor r n) = some c.fd := by
        rw [erasing, hr]
        exact congrArg (Option.map _) hc.1
      rcases hund with hnone | hne
      · cases hnone.symm.trans hk
      · exact hne (herasing.trans hk.symm)
    · rfl
  | [], none, _, hs => exact Exec.pure_inj.mp hs ▸ h
  | a :: events, none, hr, hs =>
    obtain ⟨c, -, hs⟩ := Exec.bind_eq_pure.mp hs
    obtain rfl := Exec.pure_inj.mp hs
    exact h

/-- **Every step keeps the loop going well**, if it does not erase the entry at the
iterator. -/
theorem LoopOk.step (h : LoopOk s s.main) (hinv : Inv s) {act : Act} (hund : s.Undisturbed act)
    (hs : s.exec act = pure s') : LoopOk s' s'.main := by
  cases act with
  | accept fd =>
    rw [exec, MainSubReactor.accept] at hs
    split at hs
    · exact absurd hs.symm (Exec.pure_ne_throw _ _)
    · obtain rfl := Exec.pure_inj.mp hs
      trivial
  | stdin n =>
    obtain rfl := Exec.pure_inj.mp hs
    rw [MainSubReactor.stdin]
    split
    · exact h
    · exact ⟨Walk.begin _, fun k hk => mem_of_first hk⟩
  | main => exact h.main hinv hs
  | poll r events => exact Exec.pure_inj.mp hs ▸ h
  | reactor r n =>
    rw [exec] at hs
    split at hs
    · rename_i this hr
      exact h.reactor hinv hund hr hs
    · exact Exec.pure_inj.mp hs ▸ h

theorem LoopOk.safe (h : LoopOk s s.main) (hinv : Inv s) : EchoAllSafe s where
  iterator := fun _ hk => h.iterator hk
  live := by
    intro k conn hmain
    rw [hmain] at h
    cases conn with
    | none => exact absurd h.2 (hinv.notNull k)
    | some a =>
      obtain ⟨c, hc, hfd⟩ := hinv.ok.entries h.2
      exact ⟨a, c, rfl, hc, hfd⟩
  once := by
    intro hmain k hk
    rw [hmain] at h
    exact h.1.once hk

/-! ### Every run -/

/-- **Every call of `echoAll` is safe**, and misses no client, in every run in which no
sub-reactor erases the entry at its iterator. -/
theorem run_echoAll {size : ℕ} {l : List (MainSubReactor × Act)}
    (hl : (program size).lts.Run (create size) l s) (hund : ∀ p ∈ l, p.1.Undisturbed p.2) :
    ∀ t ∈ Lts.visited l s, EchoAllSafe t := by
  intro t ht
  have hall : ∀ t ∈ Lts.visited l s, Inv t ∧ LoopOk t t.main := by
    refine hl.invariant ⟨inv_create size, trivial⟩ ?_
    rintro p hp t ⟨hinv, hloop⟩ hstep
    exact ⟨hinv.step hstep.1 hstep.2, hloop.step hinv (hund p hp) hstep.2⟩
  exact (hall t ht).2.safe (hall t ht).1

/-- The client on 6 leaves while the iterator stands at 5. -/
theorem run_echoAll_two : ∃ l s, (program 2).lts.Run (create 2) l s ∧ s.main = .visiting ⊤ ∧
    s.written = [5] ∧ ∀ t ∈ Lts.visited l s, EchoAllSafe t := by
  have hrun := Lts.Run.of_trace (M := (program 2).lts) (f := (program 2).tryStep)
    Program.tryStep_step (s := create 2)
    (l := [.accept 5, .main, .main, .accept 6, .main, .main, .poll 0 [1], .reactor 0 .data,
      .reactor 0 .eof, .stdin 3, .main, .reactor 0 .data, .reactor 0 .data, .reactor 0 .data,
      .main, .reactor 0 .data, .main]) rfl
  exact ⟨_, _, hrun, rfl, rfl, run_echoAll hrun (by decide)⟩

/-- The only client leaves while it is written to. -/
theorem not_echoAllSafe : ¬∀ size s, (program size).Reachable s → EchoAllSafe s := by
  intro h
  have hinit : (program 1).Reachable (create 1) := .init rfl
  have hrun := hinit.foldlM Program.tryStep_step
    (l := [.accept 5, .main, .main, .stdin 3, .main, .poll 0 [0], .reactor 0 .data,
      .reactor 0 .eof, .reactor 0 .data, .reactor 0 .data, .main, .reactor 0 .data]) rfl
  exact absurd ((h 1 _ hrun).iterator 5 rfl) (by decide)

end MainSubReactor

end Candcpp
