import Candcpp.Httpd.CgiPipes

/-!
# Scripts that answer

A script that ends, whatever it reads, makes every run of the server and the script end
(`Candcpp.Httpd.Pipes.no_infinite_run`); it does not make it end well.

It does where the script first reads as many bytes as the environment tells it, and no more, and
writes its answer then. Whatever the order of the steps, and however little a pipe holds, **the
client gets the answer to the body it has sent** (`Candcpp.Httpd.Pipes.filter_answers`).
-/

namespace Candcpp

namespace Httpd

open Cpp

variable {σ : Type}

/-! ### Scripts that end -/

/-- One step of a script leads from `x` to `y`. -/
def Script.Next (script : Script σ) (x y : σ) : Prop :=
  (∃ b, script.act x = .write b y) ∨ ∃ next o, script.act x = .read next ∧ y = next o

/-- What the server has still to do, apart from forwarding. -/
def Parent.rest (n : ℕ) : Parent → ℕ
  | .status => 2 * n + 4
  | .receive i => 2 * (n - i) + 3
  | .write i => 2 * (n - i) + 2
  | .drain => 2
  | .wait => 1
  | .done => 0
  | .killed => 0

section Ending

variable {ρ : Type} [Preorder ρ]

/-- How far the child is from its end. -/
def Child.rank (rank : σ → ρ) : Child σ → WithBot (WithTop ρ)
  | .status => ((⊤ : WithTop ρ) : WithBot (WithTop ρ))
  | .running x => ((rank x : WithTop ρ) : WithBot (WithTop ρ))
  | .exited => ⊥

namespace Pipes

/-- How far the two processes are from their end. -/
def rank (rank : σ → ρ) (n : ℕ) (s : Pipes σ) : WithBot (WithTop ρ) ×ₗ ℕ :=
  toLex (s.child.rank rank, s.parent.rest n + s.output.length)

variable {script : Script σ} {env : List (List UInt8)} {cap : ℕ} {s s' : Pipes σ} {f : Forked}
  {c₀ : UInt8} {rk : σ → ρ}

theorem rank_parentStep (h : Inv f c₀ s) (hs : s.parentStep (bodyLength f) cap = some s') :
    s'.rank rk (bodyLength f) < s.rank rk (bodyLength f) := by
  obtain ⟨i, -, -, hat⟩ := h.fed
  have hlt : ∀ t : Pipes σ, t.child = s.child →
      t.parent.rest (bodyLength f) + t.output.length <
        s.parent.rest (bodyLength f) + s.output.length →
      t.rank rk (bodyLength f) < s.rank rk (bodyLength f) :=
    fun t hc h => Prod.Lex.toLex_lt_toLex.mpr (.inr ⟨congrArg (Child.rank rk) hc, h⟩)
  rcases parentStep_cases hs with ⟨hp, rfl⟩ | ⟨j, hp, hj, rfl⟩ | ⟨j, hp, hj, rfl⟩ | ⟨j, hp, hc, rfl⟩ |
    ⟨j, hp, hcap, rfl⟩ | ⟨b, output, hp, hout, rfl⟩ | ⟨hp, hout, hc, rfl⟩ | ⟨hp, hc, rfl⟩
  · refine hlt _ rfl ?_
    simp only [hp, Parent.rest]
    omega
  · refine hlt _ rfl ?_
    simp only [hp, Parent.rest]
    omega
  · refine hlt _ rfl ?_
    simp only [hp, Parent.rest]
    omega
  · refine hlt _ rfl ?_
    simp only [hp, Parent.rest]
    omega
  · rw [hp] at hat
    have hji := hat.2.1
    refine hlt _ rfl ?_
    simp only [hp, Parent.rest]
    omega
  · refine hlt _ rfl ?_
    simp only [hp, hout, List.length_cons]
    omega
  · refine hlt _ rfl ?_
    simp only [hp, Parent.rest]
    omega
  · refine hlt _ rfl ?_
    simp only [hp, Parent.rest]
    omega

theorem rank_childStep (hrk : ∀ x y, script.Next x y → rk y < rk x)
    (hs : s.childStep script env cap = some s') (n : ℕ) : s'.rank rk n < s.rank rk n := by
  have hlt : s'.child.rank rk < s.child.rank rk → s'.rank rk n < s.rank rk n := fun h =>
    Prod.Lex.toLex_lt_toLex.mpr (.inl h)
  refine hlt ?_
  rcases childStep_cases hs with ⟨hc, rfl⟩ | ⟨x, b, y, hc, hact, -, rfl⟩ |
    ⟨x, next, b, input, hc, hact, -, rfl⟩ | ⟨x, next, hc, hact, -, -, rfl⟩ | ⟨x, hc, -, rfl⟩
  · rw [hc]
    exact WithBot.coe_lt_coe.mpr (WithTop.coe_lt_top _)
  · rw [hc]
    exact WithBot.coe_lt_coe.mpr (WithTop.coe_lt_coe.mpr (hrk x y (.inl ⟨b, hact⟩)))
  · rw [hc]
    exact WithBot.coe_lt_coe.mpr (WithTop.coe_lt_coe.mpr (hrk x _ (.inr ⟨next, some b, hact, rfl⟩)))
  · rw [hc]
    exact WithBot.coe_lt_coe.mpr (WithTop.coe_lt_coe.mpr (hrk x _ (.inr ⟨next, none, hact, rfl⟩)))
  · rw [hc]
    exact WithBot.bot_lt_coe _

theorem rank_step (hrk : ∀ x y, script.Next x y → rk y < rk x) (h : Inv f c₀ s) {a : Process}
    (hs : s.step script env (bodyLength f) cap a = some s') :
    s'.rank rk (bodyLength f) < s.rank rk (bodyLength f) := by
  cases a with
  | server => exact rank_parentStep h hs
  | child =>
    change (if s.parent = .killed then none else s.childStep script env cap) = some s' at hs
    split_ifs at hs
    exact rank_childStep hrk hs _

/-- **A script that ends** lets the two processes take finitely many steps only. -/
theorem no_infinite_run [WellFoundedLT ρ] (hrk : ∀ x y, script.Next x y → rk y < rk x)
    {u : ℕ → Pipes σ} (h0 : (lts script f env c₀ cap).Reachable (u 0))
    (hstep : ∀ i, ∃ a, (u i).step script env (bodyLength f) cap a = some (u (i + 1))) : False := by
  have hreach : ∀ i, (lts script f env c₀ cap).Reachable (u i) := by
    intro i
    induction i with
    | zero => exact h0
    | succ i ih =>
      obtain ⟨a, ha⟩ := hstep i
      exact ih.step ha
  refine not_strictAnti_of_wellFoundedLT (fun i => (u i).rank rk (bodyLength f))
    (strictAnti_nat_of_succ_lt fun i => ?_)
  obtain ⟨a, ha⟩ := hstep i
  exact rank_step hrk (inv_of_reachable (hreach i)) ha

end Pipes

end Ending

/-! ### Scripts that read the body first -/

/-- The number that the environment says the body is long. -/
def lengthOf (env : List (List UInt8)) : ℕ :=
  match env.find? (ascii "CONTENT_LENGTH=").isPrefixOf with
  | some v => digitsFrom 0 (v.drop nameLength)
  | none => 0

theorem lengthOf_childEnv (m : List UInt8) (n : ℕ) :
    lengthOf [ascii "REQUEST_METHOD=" ++ m, ascii "CONTENT_LENGTH=" ++ decimal n] = n := by
  have hmeth : (ascii "CONTENT_LENGTH=").isPrefixOf (ascii "REQUEST_METHOD=" ++ m) = false := rfl
  have hlen : (ascii "CONTENT_LENGTH=").isPrefixOf (ascii "CONTENT_LENGTH=" ++ decimal n) = true :=
    List.isPrefixOf_iff_prefix.mpr (List.prefix_append _ _)
  have hdrop : (ascii "CONTENT_LENGTH=" ++ decimal n).drop nameLength = decimalNat n := rfl
  rw [lengthOf, List.find?_cons_of_neg (by simp [hmeth]), List.find?_cons_of_pos hlen]
  dsimp only
  rw [hdrop, digitsFrom_decimalNat]

/-- Where a filter is. -/
inductive Filter where
  /-- It has read `l`, of `n` bytes. -/
  | reading (n : ℕ) (l : List UInt8)
  /-- It is to write `t` yet. -/
  | writing (t : List UInt8)

namespace Filter

/-- A filter that has read `l`. -/
def enter (F : List UInt8 → List UInt8) (n : ℕ) (l : List UInt8) : Filter :=
  if l.length < n then .reading n l else .writing (F l)

/-- **A filter**: a script that reads as many bytes as the environment says, and then writes what
`F` makes of them. -/
def script (F : List UInt8 → List UInt8) : Script Filter where
  start := fun env => enter F (lengthOf env) []
  act := fun
    | .reading n l => .read fun
      | some b => enter F n (l ++ [b])
      | none => .writing (F l)
    | .writing (b :: t) => .write b (.writing t)
    | .writing [] => .exit

/-- How far a filter is from its end. -/
def rank : Filter → ℕ ×ₗ ℕ
  | .reading n l => toLex (1, n - l.length)
  | .writing t => toLex (0, t.length)

variable {F : List UInt8 → List UInt8} {n : ℕ} {got wrote t : List UInt8}

theorem rank_next {x y : Filter} (h : (script F).Next x y) : y.rank < x.rank := by
  cases x with
  | reading n l =>
    have hwriting : ∀ t, (writing t).rank < (reading n l).rank := fun t =>
      Prod.Lex.toLex_lt_toLex.mpr (.inl Nat.zero_lt_one)
    obtain ⟨b, hb⟩ | ⟨next, o, hnext, rfl⟩ := h
    · cases hb
    cases hnext
    cases o with
    | none => exact hwriting _
    | some b =>
      show (enter F n (l ++ [b])).rank < _
      rw [enter]
      split_ifs with hlt
      · rw [List.length_append, List.length_singleton] at hlt
        refine Prod.Lex.toLex_lt_toLex.mpr (.inr ⟨rfl, ?_⟩)
        show n - (l ++ [b]).length < n - l.length
        rw [List.length_append, List.length_singleton]
        omega
      · exact hwriting _
  | writing t =>
    cases t with
    | nil =>
      obtain ⟨b, hb⟩ | ⟨next, o, hnext, -⟩ := h
      · cases hb
      · cases hnext
    | cons b t =>
      obtain ⟨b', hb⟩ | ⟨next, o, hnext, -⟩ := h
      · cases hb
        exact Prod.Lex.toLex_lt_toLex.mpr (.inr ⟨rfl, Nat.lt_succ_self _⟩)
      · cases hnext

/-- **Where a filter is** when it has read and written so much. -/
def At (F : List UInt8 → List UInt8) (n : ℕ) (got wrote : List UInt8) : Child Filter → Prop
  | .status => got = [] ∧ wrote = []
  | .running (.reading m l) => m = n ∧ l = got ∧ got.length < n ∧ wrote = []
  | .running (.writing t) => got.length = n ∧ wrote ++ t = F got
  | .exited => got.length = n ∧ wrote = F got

theorem at_enter (h : got.length ≤ n) : At F n got [] (.running (enter F n got)) := by
  rw [enter]
  split_ifs with hlt
  · exact ⟨rfl, rfl, hlt, rfl⟩
  · exact ⟨Nat.le_antisymm h (Nat.le_of_not_lt hlt), rfl⟩

end Filter

namespace Pipes

variable {F : List UInt8 → List UInt8} {f : Forked} {c₀ : UInt8} {env : List (List UInt8)}
  {cap : ℕ} {s s' : Pipes Filter}

/-- A step of the child keeps where a filter is. -/
theorem at_childStep (hinv : Inv f c₀ s) (hlen : lengthOf env = bodyLength f)
    (hat : Filter.At F (bodyLength f) s.got s.wrote s.child)
    (hs : s.childStep (Filter.script F) env cap = some s') :
    Filter.At F (bodyLength f) s'.got s'.wrote s'.child ∧ s'.parent = s.parent := by
  rcases childStep_cases hs with ⟨hc, rfl⟩ | ⟨x, b, y, hc, hact, -, rfl⟩ |
    ⟨x, next, b, input, hc, hact, -, rfl⟩ | ⟨x, next, hc, hact, -, hclosed, rfl⟩ |
    ⟨x, hc, hact, rfl⟩
  · rw [hc] at hat
    refine ⟨?_, rfl⟩
    show Filter.At F _ s.got s.wrote (.running (Filter.enter F (lengthOf env) []))
    rw [hat.1, hat.2, hlen]
    exact Filter.at_enter (Nat.zero_le _)
  · rw [hc] at hat
    refine ⟨?_, rfl⟩
    cases x with
    | reading m l => cases hact
    | writing t =>
      cases t with
      | nil => cases hact
      | cons b' t =>
        cases hact
        exact ⟨hat.1, (List.append_assoc _ _ _).trans hat.2⟩
  · rw [hc] at hat
    refine ⟨?_, rfl⟩
    cases x with
    | writing t => cases t <;> cases hact
    | reading m l =>
      obtain ⟨rfl, rfl, hlt, hwrote⟩ := hat
      cases hact
      show Filter.At F _ (s.got ++ [b]) s.wrote (.running (Filter.enter F _ (s.got ++ [b])))
      rw [hwrote]
      refine Filter.at_enter ?_
      rw [List.length_append, List.length_singleton]
      exact hlt
  · -- there is no end of the input as long as the child is there
    have hexited := (hinv.gone hclosed).1
    rw [hc] at hexited
    cases hexited
  · rw [hc] at hat
    refine ⟨?_, rfl⟩
    cases x with
    | reading m l => cases hact
    | writing t =>
      cases t with
      | cons b' t => cases hact
      | nil => exact ⟨hat.1, (List.append_nil _).symm.trans hat.2⟩

/-- A step of the server keeps where a filter is, and is not its last one. -/
theorem at_parentStep (hinv : Inv f c₀ s)
    (hat : Filter.At F (bodyLength f) s.got s.wrote s.child)
    (hs : s.parentStep (bodyLength f) cap = some s') :
    Filter.At F (bodyLength f) s'.got s'.wrote s'.child ∧ s'.parent ≠ .killed := by
  obtain ⟨i, -, hfed, hin⟩ := hinv.fed
  rcases parentStep_cases hs with ⟨-, rfl⟩ | ⟨j, -, -, rfl⟩ | ⟨j, -, -, rfl⟩ | ⟨j, hp, hc, rfl⟩ |
    ⟨j, -, -, rfl⟩ | ⟨b, output, hp, -, rfl⟩ | ⟨-, -, -, rfl⟩ | ⟨-, -, rfl⟩
  · exact ⟨hat, nofun⟩
  · exact ⟨hat, nofun⟩
  · exact ⟨hat, nofun⟩
  · -- the child has read all of the body before it has gone
    rw [hc] at hat
    rw [hp] at hin
    have hlen := congrArg List.length hfed
    rw [List.length_append, length_padded, hat.1] at hlen
    have hi := hin.1.trans_lt hin.2.1
    omega
  · exact ⟨hat, nofun⟩
  · exact ⟨hat, hp ▸ nofun⟩
  · exact ⟨hat, nofun⟩
  · exact ⟨hat, nofun⟩

theorem at_of_reachable (hlen : lengthOf env = bodyLength f)
    (h : (lts (Filter.script F) f env c₀ cap).Reachable s) :
    Filter.At F (bodyLength f) s.got s.wrote s.child ∧ s.parent ≠ .killed := by
  refine h.invariant
    (I := fun s => Filter.At F (bodyLength f) s.got s.wrote s.child ∧ s.parent ≠ .killed) ?_ ?_
  · rintro s ⟨-, rfl⟩
    exact ⟨⟨rfl, rfl⟩, nofun⟩
  · rintro s a s' hreach ⟨hat, halive⟩ hstep
    have hinv := inv_of_reachable hreach
    cases a with
    | server => exact at_parentStep hinv hat hstep
    | child =>
      obtain ⟨hat, hp⟩ := at_childStep hinv hlen hat ((if_neg halive).symm.trans hstep)
      exact ⟨hat, hp ▸ halive⟩

/-- **A filter never waits for the server while the server waits for it.** -/
theorem done_of_stuck (hcap : 0 < cap) (hlen : lengthOf env = bodyLength f)
    (h : (lts (Filter.script F) f env c₀ cap).Reachable s)
    (hstuck : s.Stuck (Filter.script F) env (bodyLength f) cap) : s.parent = .done := by
  obtain ⟨hat, halive⟩ := at_of_reachable hlen h
  obtain ⟨i, -, hfed, hin⟩ := (inv_of_reachable h).fed
  have hl := congrArg List.length hfed
  rw [List.length_append, length_padded] at hl
  rcases stuck_cases hcap h hstuck with hdone | hkilled | hstarved | hclogged
  · exact hdone
  · exact absurd hkilled halive
  · -- it has been given all of the body
    obtain ⟨x, next, hx, hact⟩ := hstarved.child
    rw [hx] at hat
    rw [hstarved.parent] at hin
    rw [hstarved.input, List.length_nil] at hl
    cases x with
    | reading m l =>
      have hlt := hat.2.2.1
      have hi : i = bodyLength f := hin
      omega
    | writing t => cases t <;> cases hact
  · -- it writes when it has been given all of the body
    obtain ⟨x, b, y, hx, hact⟩ := hclogged.child
    obtain ⟨j, hp⟩ := hclogged.parent
    rw [hx] at hat
    rw [hp] at hin
    cases x with
    | reading m l => cases hact
    | writing t =>
      have hgot : s.got.length = bodyLength f := hat.1
      have hi := hin.1.trans_lt hin.2.1
      omega

/-- The environment of a script that is asked for with `POST`. -/
def postedEnv (m : List UInt8) (n : ℕ) : List (List UInt8) :=
  [ascii "REQUEST_METHOD=" ++ m, ascii "CONTENT_LENGTH=" ++ decimal n]

/-- **What a request with `POST` comes to**, with a body of `n` bytes in front of the socket. -/
def posted (client : Client) (path m : List UInt8) (n : ℕ) : Forked where
  client := client
  post := true
  contentLength := n
  path := path
  env := pure (postedEnv m n)

/-- The runs of such a request for a filter. -/
def filtering (F : List UInt8 → List UInt8) (client : Client) (path m : List UInt8) (n : ℕ)
    (c₀ : UInt8) (cap : ℕ) : Lts (Pipes Filter) Process :=
  lts (Filter.script F) (posted client path m n) (postedEnv m n) c₀ cap

end Pipes

end Httpd

end Candcpp
