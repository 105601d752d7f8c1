import Candcpp.Lts
import Candcpp.Order.Forest

/-!
# Disjoint sets

The class `DisjointSet` of `leetcode/disjoint_set/1391.cpp`: an array `f` in which each index
has its parent, and a root is its own parent. `findRoot` follows the parents, and `unionNums`
links one root below another. There is neither path compression nor a rank.

`findRoot` returns because the array is a forest (`Candcpp.Forest`), and it is one in every
state: `Candcpp.DisjointSet.run_classes` says so, and that two indices have the same root
exactly if they are related by the pairs that have been united. An `int` is a natural number
here: the indices are not negative.
-/

namespace Candcpp

open Cpp Forest

/-- `class DisjointSet`. -/
structure DisjointSet where
  f : Arr ℕ
  mSize : ℕ

namespace DisjointSet

/-! ### The code -/

/-- `DisjointSet(size)`. -/
def create (size : ℕ) : DisjointSet where
  f := { data := fun i => i, size := size }
  mSize := size

/-- `findRoot(node)`. -/
def findRoot (s : DisjointSet) (node : ℕ) : Exec ℕ := do
  let +zeta findRoot : type_of% findRoot := by apply findRoot
  let parent ← s.f.get node
  if node = parent then
    pure node
  else
    findRoot s parent
partial_fixpoint

/-- `unionNums(father, child)`. -/
def unionNums (s : DisjointSet) (father child : ℕ) : Exec DisjointSet := do
  let fatherIdx ← s.findRoot father
  let childIdx ← s.findRoot child
  if fatherIdx ≠ childIdx then
    let f ← s.f.put childIdx fatherIdx
    pure { s with f := f }
  else
    pure s

/-! ### The program -/

/-- A call of `unionNums`. -/
structure Act where
  father : ℕ
  child : ℕ
  deriving DecidableEq, Repr

/-- Any number of calls on a new object, with indices of the array. -/
def program (size : ℕ) : Program DisjointSet Act where
  init := fun s => s = create size
  allowed := fun s a => a.father < s.mSize ∧ a.child < s.mSize
  exec := fun s a => s.unionNums a.father a.child

instance (size : ℕ) (s : DisjointSet) (a : Act) : Decidable ((program size).allowed s a) :=
  inferInstanceAs (Decidable (_ ∧ _))

/-- The pairs that a run has united. -/
def United (l : List (DisjointSet × Act)) (a b : ℕ) : Prop :=
  ∃ p ∈ l, p.2.father = a ∧ p.2.child = b

/-! ### The operations -/

variable {size : ℕ} {s s' : DisjointSet} {rel : ℕ → ℕ → Prop} {a b r : ℕ}

/-- **The invariant**: the trees of the array are the classes of what has been united. -/
structure Inv (size : ℕ) (s : DisjointSet) (rel : ℕ → ℕ → Prop) : Prop where
  mSize : s.mSize = size
  length : s.f.size = size
  classes : Classes s.f.data (Set.Iio size) rel

theorem inv_create (size : ℕ) : Inv size (create size) fun _ _ => False where
  mSize := rfl
  length := rfl
  classes := classes_of_forall fun _ _ => rfl

/-- **`findRoot` returns** the root to which the parents lead. -/
theorem Inv.findRoot_eq (h : Inv size s rel) (ha : a < size) (hr : RootOf s.f.data a r) :
    s.findRoot a = pure r := by
  induction hr with
  | @root r hr =>
    rw [findRoot, Arr.get_eq (h.length ▸ ha), pure_bind, if_pos hr.symm]
  | @step a r hne _ ih =>
    rw [findRoot, Arr.get_eq (h.length ▸ ha), pure_bind, if_neg hne.symm]
    exact ih (h.classes.closed a ha)

/-- **`unionNums` returns**, and unites two classes. -/
theorem Inv.unionNums (h : Inv size s rel) (ha : a < size) (hb : b < size) :
    ∃ s', s.unionNums a b = pure s' ∧ Inv size s' (Adding rel a b) := by
  obtain ⟨r, hr⟩ := h.classes.rooted a ha
  obtain ⟨c, hc⟩ := h.classes.rooted b hb
  rw [DisjointSet.unionNums, h.findRoot_eq ha hr, pure_bind, h.findRoot_eq hb hc, pure_bind]
  by_cases hne : r = c
  · subst hne
    rw [if_neg (not_not.mpr rfl)]
    exact ⟨s, rfl, h.mSize, h.length, h.classes.add ha hb hr hc⟩
  · have hlt : c < s.f.size := h.length ▸ h.classes.root_mem hb hc
    rw [if_pos hne, Arr.put_eq hlt, pure_bind]
    exact ⟨_, rfl, h.mSize, h.length, h.classes.link ha hb hr hc hne⟩

/-! ### Every run -/

theorem united_snoc (l : List (DisjointSet × Act)) (p : DisjointSet × Act) :
    United (l ++ [p]) = Adding (United l) p.2.father p.2.child := by
  funext a b
  refine propext ⟨?_, ?_⟩
  · rintro ⟨q, hq, rfl, rfl⟩
    rcases List.mem_append.mp hq with hq | hq
    · exact Or.inl ⟨q, hq, rfl, rfl⟩
    · rw [List.mem_singleton.mp hq]
      exact Or.inr ⟨rfl, rfl⟩
  · rintro (⟨q, hq, hqa⟩ | ⟨rfl, rfl⟩)
    · exact ⟨q, List.mem_append_left _ hq, hqa⟩
    · exact ⟨p, List.mem_append_right _ (List.mem_singleton.mpr rfl), rfl, rfl⟩

theorem run_inv {l : List (DisjointSet × Act)} (h : (program size).lts.Run (create size) l s) :
    Inv size s (United l) := by
  induction h with
  | nil =>
    have hnone : United [] = fun _ _ => False := by
      funext a b
      exact propext ⟨fun ⟨p, hp, _⟩ => List.not_mem_nil hp, False.elim⟩
    exact hnone ▸ inv_create size
  | snoc _ hs ih =>
    obtain ⟨⟨ha, hb⟩, hexec⟩ := hs
    rw [ih.mSize] at ha hb
    obtain ⟨t, ht, hinv⟩ := ih.unionNums ha hb
    obtain rfl := Exec.pure_unique hexec ht
    exact united_snoc _ _ ▸ hinv

/-- **What a run leaves behind**: the array is a forest, and `findRoot` and `unionNums` return;
two indices have the same root exactly if they are related by what has been united. -/
structure Correct (size : ℕ) (s : DisjointSet) (rel : ℕ → ℕ → Prop) : Prop where
  forest : ∀ a < size, ∃ n, s.f.data (s.f.data^[n] a) = s.f.data^[n] a
  findRoot : ∀ a < size, ∃ r, s.findRoot a = pure r
  unionNums : ∀ a < size, ∀ b < size, ∃ s', s.unionNums a b = pure s'
  same : ∀ a < size, ∀ b < size, (s.findRoot a = s.findRoot b ↔ Relation.EqvGen rel a b)

/-- **The array is a forest of the classes in every state.** -/
theorem run_classes {l : List (DisjointSet × Act)}
    (h : (program size).lts.Run (create size) l s) : Correct size s (United l) := by
  have hinv := run_inv h
  constructor
  · intro a ha
    obtain ⟨r, hr⟩ := hinv.classes.rooted a ha
    obtain ⟨n, hn⟩ := hr.iterate
    exact ⟨n, by rw [hn, hr.isRoot]⟩
  · intro a ha
    obtain ⟨r, hr⟩ := hinv.classes.rooted a ha
    exact ⟨r, hinv.findRoot_eq ha hr⟩
  · intro a ha b hb
    obtain ⟨t, ht, -⟩ := hinv.unionNums ha hb
    exact ⟨t, ht⟩
  · intro a ha b hb
    obtain ⟨r, hr⟩ := hinv.classes.rooted a ha
    obtain ⟨r', hr'⟩ := hinv.classes.rooted b hb
    rw [hinv.findRoot_eq ha hr, hinv.findRoot_eq hb hr', Exec.pure_inj]
    exact hinv.classes.same ha hb hr hr'

/-- Two indices are united. -/
theorem run_classes_two : ∃ l s, (program 2).lts.Run (create 2) l s ∧ United l 0 1 ∧
    s.findRoot 0 = s.findRoot 1 := by
  have hallowed : (program 2).allowed (create 2) { father := 0, child := 1 } := by decide
  obtain ⟨s, hs, -⟩ := (inv_create 2).unionNums hallowed.1 hallowed.2
  have hrun : (program 2).lts.Run (create 2) [(create 2, { father := 0, child := 1 })] s :=
    .snoc .nil ⟨hallowed, hs⟩
  have hunited : United [(create 2, { father := 0, child := 1 })] 0 1 :=
    ⟨_, List.mem_singleton.mpr rfl, rfl, rfl⟩
  exact ⟨_, s, hrun, hunited,
    ((run_classes hrun).same 0 (by decide) 1 (by decide)).mpr (.rel _ _ hunited)⟩

end DisjointSet

end Candcpp
