import Candcpp.Cpp.Exec

/-!
# Queues that are emptied level by level

The loops of a breadth-first traversal that takes as many elements out of a queue as there were at
the beginning of a level, and puts the children of each of them at the end:
`Candcpp.Cpp.levelsLoop`. What is done with an element is a parameter: it prints something and tells
which elements are put at the end.

Where every element that comes into the queue can be visited, **the levels are printed one after
the other** (`Candcpp.Cpp.levelsLoop_eq`): the first one is the queue at the beginning, and the next
one always consists of the children of all elements in order (`Candcpp.Cpp.generation`). And a
traversal that returns has visited everything that came into the queue
(`Candcpp.Cpp.levelsLoop_visits`).
-/

namespace Candcpp

namespace Cpp

variable {α β : Type}

/-- `for (int i = 0; i < size; i++)`, which visits as many elements as there are in the level: the
queue, and what has been printed in the line. -/
def levelLoop (visit : α → Exec (β × List α)) : ℕ → List α → List β → Exec (List α × List β)
  | 0, q, line => pure (q, line)
  | _ + 1, [], _ => throw .emptyQueue
  | size + 1, a :: q, line => do
    let r ← visit a
    levelLoop visit size (q ++ r.2) (line ++ [r.1])

/-- `while (!q.empty())`: the lines that are printed. -/
def levelsLoop [DecidableEq α] (visit : α → Exec (β × List α)) (q : List α)
    (lines : List (List β)) : Exec (List (List β)) := do
  let +zeta levelsLoop : type_of% levelsLoop := by apply levelsLoop
  if q = [] then
    pure lines
  else
    let r ← levelLoop visit q.length q []
    levelsLoop visit r.1 (lines ++ [r.2])
partial_fixpoint

/-- **The elements of a level**: the children of those in the level above. -/
def generation (kids : α → List α) (q : List α) (k : ℕ) : List α :=
  (fun l : List α => l.flatMap kids)^[k] q

variable {visit : α → Exec (β × List α)} {label : α → β} {kids : α → List α} {q xs ys : List α}
  {n : ℕ}

@[simp] theorem generation_zero (kids : α → List α) (q : List α) : generation kids q 0 = q := rfl

/-- The levels below the first one. -/
theorem generation_flatMap (kids : α → List α) (q : List α) (k : ℕ) :
    generation kids (q.flatMap kids) k = generation kids q (k + 1) := rfl

/-- The level below another one. -/
theorem generation_succ (kids : α → List α) (q : List α) (k : ℕ) :
    generation kids q (k + 1) = (generation kids q k).flatMap kids :=
  Function.iterate_succ_apply' _ _ _

theorem generation_nil (kids : α → List α) (k : ℕ) : generation kids [] k = [] := by
  induction k with
  | zero => rfl
  | succ k ih => rw [generation_succ, ih, List.flatMap_nil]

/-- The levels below two queues. -/
theorem generation_append (kids : α → List α) (xs ys : List α) (k : ℕ) :
    generation kids (xs ++ ys) k = generation kids xs k ++ generation kids ys k := by
  induction k with
  | zero => rfl
  | succ k ih =>
    rw [generation_succ, ih, List.flatMap_append, ← generation_succ, ← generation_succ]

/-- **A level is printed** in order, and its children are in the queue. -/
theorem levelLoop_eq (h : ∀ a ∈ xs, visit a = pure (label a, kids a)) (ys : List α)
    (line : List β) : levelLoop visit xs.length (xs ++ ys) line =
      pure (ys ++ xs.flatMap kids, line ++ xs.map label) := by
  induction xs generalizing ys line with
  | nil =>
    rw [List.length_nil, levelLoop, List.flatMap_nil, List.map_nil, List.append_nil,
      List.append_nil, List.nil_append]
  | cons a xs ih =>
    rw [List.length_cons, List.cons_append, levelLoop, h a List.mem_cons_self, pure_bind,
      List.append_assoc, ih (fun b hb => h b (List.mem_cons_of_mem a hb)), List.flatMap_cons,
      List.map_cons, List.append_assoc, List.append_assoc]
    rfl

/-- **The levels are printed** one after the other, up to the first one that is empty. -/
theorem levelsLoop_eq [DecidableEq α] (label : α → β) (hn : generation kids q n = [])
    (hne : ∀ k < n, generation kids q k ≠ [])
    (h : ∀ k < n, ∀ a ∈ generation kids q k, visit a = pure (label a, kids a))
    (lines : List (List β)) : levelsLoop visit q lines =
      pure (lines ++ (List.range n).map fun k => (generation kids q k).map label) := by
  induction n generalizing q lines with
  | zero =>
    have hq : q = [] := hn
    rw [levelsLoop, if_pos hq, List.range_zero, List.map_nil, List.append_nil]
  | succ n ih =>
    have hq : q ≠ [] := hne 0 (Nat.succ_pos n)
    have hlevel := levelLoop_eq (h 0 (Nat.succ_pos n)) [] []
    rw [List.append_nil, generation_zero, List.nil_append, List.nil_append] at hlevel
    rw [levelsLoop, if_neg hq, hlevel, pure_bind,
      ih hn (fun k hk => hne (k + 1) (Nat.succ_lt_succ hk))
        (fun k hk => h (k + 1) (Nat.succ_lt_succ hk)),
      List.range_succ_eq_map, List.map_cons, List.map_map, List.append_assoc]
    rfl

/-- A level that has been printed has been visited, and its children are in the queue. -/
theorem levelLoop_visits {line : List β} {r : List α × List β}
    (h : levelLoop visit xs.length (xs ++ ys) line = pure r) :
    (∀ a ∈ ys, a ∈ r.1) ∧ ∀ a ∈ xs, ∃ s, visit a = pure s ∧ ∀ c ∈ s.2, c ∈ r.1 := by
  induction xs generalizing ys line with
  | nil =>
    rw [List.length_nil, levelLoop, Exec.pure_inj] at h
    rw [← h]
    exact ⟨fun a ha => ha, by simp⟩
  | cons a xs ih =>
    rw [List.length_cons, List.cons_append, levelLoop] at h
    obtain ⟨s, hs, hrest⟩ := Exec.bind_eq_pure.mp h
    rw [List.append_assoc] at hrest
    obtain ⟨hys, hxs⟩ := ih hrest
    refine ⟨fun b hb => hys b (List.mem_append_left _ hb), List.forall_mem_cons.mpr ⟨?_, hxs⟩⟩
    exact ⟨s, hs, fun c hc => hys c (List.mem_append_right _ hc)⟩

/-- **A traversal that returns** has visited every element of the queue, and goes on with a queue
in which its children are. -/
theorem levelsLoop_visits [DecidableEq α] {lines out : List (List β)}
    (h : levelsLoop visit q lines = pure out) {a : α} (ha : a ∈ q) : ∃ s, visit a = pure s ∧
      ∃ q' lines', (∀ c ∈ s.2, c ∈ q') ∧ levelsLoop visit q' lines' = pure out := by
  rw [levelsLoop, if_neg (List.ne_nil_of_mem ha)] at h
  obtain ⟨r, hr, hrest⟩ := Exec.bind_eq_pure.mp h
  have hr' : levelLoop visit q.length (q ++ []) [] = pure r := by rwa [List.append_nil]
  obtain ⟨-, hq⟩ := levelLoop_visits hr'
  obtain ⟨s, hs, hkids⟩ := hq a ha
  exact ⟨s, hs, r.1, _, hkids, hrest⟩

end Cpp

end Candcpp
