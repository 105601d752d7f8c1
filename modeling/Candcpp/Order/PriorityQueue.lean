import Candcpp.Cpp.Exec

/-!
# Priority queues

The container `std::priority_queue`, as its users see it: a `Candcpp.Cpp.PriorityQueue` is any
implementation that keeps the multiset of what has been pushed and not yet popped, and whose
`top()` is an element below no other one in the order of the priorities. Which one that is among
elements of equal priority is left to the implementation, and a program that uses the queue is
modelled with an implementation as a parameter.

`Candcpp.Cpp.PriorityQueue.ofList` is one, by a search in a list.
-/

namespace Candcpp

namespace Cpp

/-- **A priority queue**: its operations, and what they do to its contents. `lt a b` says that
`a` has a lower priority than `b`. -/
structure PriorityQueue (α : Type) (lt : α → α → Prop) where
  /-- The queues. -/
  Queue : Type
  empty : Queue
  push : Queue → α → Queue
  top : Queue → Exec α
  pop : Queue → Exec Queue
  /-- The elements of a queue. -/
  contents : Queue → Multiset α
  contents_empty : contents empty = 0
  contents_push : ∀ q a, contents (push q a) = a ::ₘ contents q
  /-- There is a top, and it is removed by `pop`. -/
  top_eq : ∀ q, contents q ≠ 0 → ∃ a ∈ contents q, top q = pure a ∧
    (∀ b ∈ contents q, ¬ lt a b) ∧ ∃ q', pop q = pure q' ∧ contents q = a ::ₘ contents q'

namespace PriorityQueue

variable {α : Type}

/-- `q.empty()`. -/
def IsEmpty {lt : α → α → Prop} (Q : PriorityQueue α lt) (q : Q.Queue) : Prop :=
  (Q.contents q).card = 0

instance {lt : α → α → Prop} (Q : PriorityQueue α lt) (q : Q.Queue) : Decidable (Q.IsEmpty q) :=
  inferInstanceAs (Decidable (_ = 0))

theorem isEmpty_iff {lt : α → α → Prop} {Q : PriorityQueue α lt} {q : Q.Queue} :
    Q.IsEmpty q ↔ Q.contents q = 0 := Multiset.card_eq_zero

/-- A list that is not empty has an element below no other one. -/
theorem exists_maximal (lt : α → α → Prop) [IsStrictOrder α lt] {l : List α} (hl : l ≠ []) :
    ∃ a ∈ l, ∀ b ∈ l, ¬ lt a b := by
  induction l with
  | nil => exact absurd rfl hl
  | cons x l ih =>
    rcases eq_or_ne l [] with rfl | hne
    · refine ⟨x, List.mem_cons_self, fun b hb => ?_⟩
      rw [List.mem_singleton.mp hb]
      exact irrefl x
    · obtain ⟨a, ha, hmax⟩ := ih hne
      by_cases hax : lt a x
      · refine ⟨x, List.mem_cons_self, fun b hb hxb => ?_⟩
        rcases List.mem_cons.mp hb with rfl | hb
        · exact irrefl b hxb
        · exact hmax b hb (IsTrans.trans _ _ _ hax hxb)
      · refine ⟨a, List.mem_cons_of_mem x ha, fun b hb => ?_⟩
        rcases List.mem_cons.mp hb with rfl | hb
        · exact hax
        · exact hmax b hb

/-- The top of a list: the first element below no other one. -/
def topOf (lt : α → α → Prop) [DecidableRel lt] (l : List α) : Exec α :=
  match l.find? fun a => ∀ b ∈ l, ¬ lt a b with
  | none => throw .emptyStack
  | some a => pure a

theorem topOf_eq (lt : α → α → Prop) [DecidableRel lt] [IsStrictOrder α lt] {l : List α}
    (hl : l ≠ []) : ∃ a ∈ l, topOf lt l = pure a ∧ ∀ b ∈ l, ¬ lt a b := by
  obtain ⟨m, hm, hmax⟩ := exists_maximal lt hl
  have hsome : (l.find? fun a => ∀ b ∈ l, ¬ lt a b).isSome := by
    rw [List.find?_isSome]
    exact ⟨m, hm, by simpa using hmax⟩
  obtain ⟨a, ha⟩ := Option.isSome_iff_exists.mp hsome
  refine ⟨a, List.mem_of_find?_eq_some ha, by rw [topOf, ha], ?_⟩
  have hspec := List.find?_some ha
  simpa using hspec

/-- **A priority queue in a list.** -/
def ofList [DecidableEq α] (lt : α → α → Prop) [DecidableRel lt] [IsStrictOrder α lt] :
    PriorityQueue α lt where
  Queue := List α
  empty := []
  push := fun l a => a :: l
  top := topOf lt
  pop := fun l => do
    let a ← topOf lt l
    pure (l.erase a)
  contents := fun l => l
  contents_empty := rfl
  contents_push := fun _ _ => rfl
  top_eq := by
    intro l hl
    have hne : l ≠ [] := fun h => hl (by rw [h]; rfl)
    obtain ⟨a, ha, htop, hmax⟩ := topOf_eq lt hne
    refine ⟨a, ha, htop, hmax, l.erase a, by rw [htop, pure_bind], ?_⟩
    exact Multiset.coe_eq_coe.mpr (List.perm_cons_erase ha)

end PriorityQueue

end Cpp

end Candcpp
