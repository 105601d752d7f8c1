import Candcpp.Order.Shapes

/-!
# Level order

The nodes of a binary tree from top to bottom, and from left to right: those of one level
(`Candcpp.Shape.levelNodes`), and the listing in which every node is followed, after the nodes
before it have had their turn, by its children, with an entry for a child that is missing
(`Candcpp.Shape.listing`). The listing is that of a queue of trees: the first one is taken out, its
root is listed, and its subtrees are put at the end.

**Every node is in one level** (`Candcpp.Shape.levels_perm`), and in one entry of the listing
(`Candcpp.Shape.listing_perm`). What can be read as a listing, up to missing children at the end, is
a matter of counting (`Candcpp.Shape.Open`): while there are entries to come, some child has not
been listed yet. **A list for which this is so is the listing of trees**, the end apart
(`Candcpp.Shape.exists_listing`). A tree whose listing has been relabelled can be relabelled
(`Candcpp.Shape.exists_relabelled`).
-/

namespace Candcpp

namespace Shape

variable {α β : Type}

/-- The subtrees of a tree. -/
def kids : Shape α → List (Shape α)
  | .nil => []
  | .node _ l r => [l, r]

/-- **The nodes of a level**, from left to right. -/
def levelNodes : Shape α → ℕ → List α
  | .nil, _ => []
  | .node a _ _, 0 => [a]
  | .node _ l r, k + 1 => levelNodes l k ++ levelNodes r k

/-- How many entries the listing of a queue has. -/
def weight (ts : List (Shape α)) : ℕ := (ts.map fun t => 2 * t.numNodes + 1).sum

theorem weight_append (ts us : List (Shape α)) : weight (ts ++ us) = weight ts + weight us := by
  rw [weight, List.map_append, List.sum_append, weight, weight]

/-- An entry has been listed. -/
theorem weight_cons (t : Shape α) (ts : List (Shape α)) :
    weight (t :: ts) = weight (ts ++ kids t) + 1 := by
  rw [weight_append, weight, List.map_cons, List.sum_cons, weight]
  cases t with
  | nil =>
    simp [kids, weight]
    omega
  | node a l r =>
    simp [kids, weight]
    omega

/-- **The listing** of a queue of trees in level order. -/
def listing : List (Shape α) → List (Option α)
  | [] => []
  | t :: ts => root? t :: listing (ts ++ kids t)
termination_by ts => weight ts
decreasing_by
  rw [weight_cons]
  exact Nat.lt_succ_self _

/-- **While there are entries to come**, one of the `n` trees of the queue, or of the children of
the nodes that have been listed, is left. -/
def Open (n : ℕ) (es : List (Option α)) : Prop :=
  ∀ k < es.length, k < n + 2 * (es.take k).reduceOption.length

variable {t l r : Shape α} {ts us : List (Shape α)} {es : List (Option α)} {a : α} {n k : ℕ}

/-! ### The levels -/

/-- The levels that have nodes are those above the height. -/
theorem levelNodes_eq_nil_iff : levelNodes t k = [] ↔ t.height ≤ k := by
  induction t generalizing k with
  | nil => exact iff_of_true rfl (Nat.zero_le k)
  | node a l r ihl ihr =>
    cases k with
    | zero => exact iff_of_false (List.cons_ne_nil _ _) (by simp)
    | succ k =>
      rw [levelNodes, List.append_eq_nil_iff, ihl, ihr]
      simp

/-- **The levels together** have every node once. -/
theorem levels_perm (h : t.height ≤ n) :
    ((List.range n).flatMap (levelNodes t)).Perm (labels t) := by
  induction t generalizing n with
  | nil =>
    have hnil : (List.range n).flatMap (levelNodes (.nil : Shape α)) = [] :=
      List.flatMap_eq_nil_iff.mpr fun _ _ => rfl
    rw [hnil]
    exact .refl _
  | node a l r ihl ihr =>
    obtain ⟨n, rfl⟩ : ∃ n', n = n' + 1 :=
      Nat.exists_eq_add_one.mpr (Nat.lt_of_lt_of_le (by simp) h)
    have hheight : l.height ≤ n ∧ r.height ≤ n := by simpa using h
    rw [List.range_succ_eq_map, List.flatMap_cons, List.flatMap_map, labels]
    refine .cons a ?_
    exact (List.flatMap_append_perm _ _ _).symm.trans ((ihl hheight.1).append (ihr hheight.2))

/-- The nodes of a level are nodes of the tree. -/
theorem mem_labels_of_level (h : a ∈ levelNodes t k) : a ∈ labels t :=
  (levels_perm (Nat.le_max_left t.height (k + 1))).mem_iff.mp (List.mem_flatMap.mpr
    ⟨k, List.mem_range.mpr (Nat.lt_of_lt_of_le (Nat.lt_succ_self k) (Nat.le_max_right _ _)), h⟩)

/-! ### The listing -/

theorem listing_nil : listing ([] : List (Shape α)) = [] := by
  rw [listing]

theorem listing_cons (t : Shape α) (ts : List (Shape α)) :
    listing (t :: ts) = root? t :: listing (ts ++ kids t) := by
  rw [listing]

/-- **The listing has every node once.** -/
theorem listing_perm (ts : List (Shape α)) :
    (listing ts).reduceOption.Perm (ts.flatMap labels) := by
  induction ts using listing.induct with
  | case1 =>
    rw [listing_nil]
    exact .refl _
  | case2 t ts ih =>
    rw [listing_cons, List.flatMap_cons]
    rw [List.flatMap_append] at ih
    cases t with
    | nil => simpa [root?, labels, kids] using ih
    | node a l r =>
      rw [root?, List.reduceOption_cons_of_some, labels, List.cons_append]
      refine .cons a (ih.trans (List.perm_append_comm.trans (.of_eq ?_)))
      rw [kids, List.flatMap_cons, List.flatMap_singleton]

/-- A queue whose listing has no node is one of trees without nodes. -/
theorem eq_nil_of_listing (h : ∀ e ∈ listing ts, e = none) (ht : t ∈ ts) : t = .nil := by
  cases t with
  | nil => rfl
  | node a l r =>
    have hmem : a ∈ (listing ts).reduceOption := by
      rw [(listing_perm ts).mem_iff]
      exact List.mem_flatMap.mpr ⟨_, ht, List.mem_cons_self⟩
    exact absurd (h _ (List.reduceOption_mem_iff.mp hmem)) (Option.some_ne_none a)

/-- Trees without nodes. -/
theorem listing_replicate (n : ℕ) :
    listing (List.replicate n (.nil : Shape α)) = List.replicate n none := by
  induction n with
  | zero => exact listing_nil
  | succ n ih =>
    rw [List.replicate_succ, listing_cons, kids, List.append_nil, ih]
    rfl

theorem Open.pos {e : Option α} (h : Open n (e :: es)) : 0 < n := by
  simpa using h 0 (by simp)

/-- **A list that can be read** is the listing of `n` trees, up to entries without nodes. -/
theorem exists_listing (h : Open n es) : ∃ ts : List (Shape α), ts.length = n ∧
    ∃ k, listing ts = es ++ List.replicate k none := by
  induction es generalizing n with
  | nil => exact ⟨List.replicate n .nil, List.length_replicate, n, listing_replicate n⟩
  | cons e es ih =>
    obtain ⟨n, rfl⟩ : ∃ n', n = n' + 1 := Nat.exists_eq_add_one.mpr h.pos
    cases e with
    | none =>
      have hrest : Open n es := fun k hk => by
        have hopen := h (k + 1) (Nat.succ_lt_succ hk)
        rw [List.take_succ_cons, List.reduceOption_cons_of_none] at hopen
        omega
      obtain ⟨ts, hlen, k, hts⟩ := ih hrest
      refine ⟨.nil :: ts, by rw [List.length_cons, hlen], k, ?_⟩
      rw [listing_cons, kids, List.append_nil, hts]
      rfl
    | some a =>
      have hrest : Open (n + 2) es := fun k hk => by
        have hopen := h (k + 1) (Nat.succ_lt_succ hk)
        rw [List.take_succ_cons, List.reduceOption_cons_of_some, List.length_cons] at hopen
        omega
      obtain ⟨us, hlen, k, hus⟩ := ih hrest
      -- the last two trees of the queue are the subtrees of the node
      obtain ⟨ts, l, r, rfl⟩ : ∃ ts l r, us = ts ++ [l, r] := by
        have hlast : (us.drop n).length = 2 := by
          rw [List.length_drop, hlen]
          omega
        obtain ⟨l, r, hlr⟩ := List.length_eq_two.mp hlast
        exact ⟨us.take n, l, r, by rw [← hlr, List.take_append_drop]⟩
      rw [List.length_append] at hlen
      refine ⟨.node a l r :: ts, by rw [List.length_cons]; simpa using hlen, k, ?_⟩
      rw [listing_cons, kids, hus]
      rfl

/-- **A listing that has been relabelled** is the listing of relabelled trees. -/
theorem exists_relabelled (f : β → α) {bs : List (Option β)}
    (h : bs.map (Option.map f) = listing ts) :
    ∃ us : List (Shape β), us.map (fun u => u.map f) = ts ∧ listing us = bs := by
  induction ts using listing.induct generalizing bs with
  | case1 =>
    rw [listing_nil, List.map_eq_nil_iff] at h
    exact ⟨[], rfl, h ▸ listing_nil⟩
  | case2 t ts ih =>
    rw [listing_cons] at h
    obtain ⟨b, bs, rfl, hb, hbs⟩ := List.map_eq_cons_iff.mp h
    obtain ⟨vs, hvs, hlist⟩ := ih hbs
    obtain ⟨us, ks, rfl, hus, hks⟩ := List.map_eq_append_iff.mp hvs
    cases t with
    | nil =>
      obtain rfl := List.map_eq_nil_iff.mp hks
      obtain rfl := Option.map_eq_none_iff.mp hb
      refine ⟨.nil :: us, by rw [List.map_cons, hus]; rfl, ?_⟩
      rw [listing_cons, kids, hlist]
      rfl
    | node a l r =>
      obtain ⟨c, rfl, rfl⟩ := Option.map_eq_some_iff.mp hb
      obtain ⟨l', ks, rfl, rfl, hks'⟩ := List.map_eq_cons_iff.mp hks
      obtain ⟨r', ks, rfl, rfl, hks''⟩ := List.map_eq_cons_iff.mp hks'
      obtain rfl := List.map_eq_nil_iff.mp hks''
      refine ⟨.node c l' r' :: us, by rw [List.map_cons, hus]; rfl, ?_⟩
      rw [listing_cons, kids, hlist]
      rfl

end Shape

end Candcpp
