import Candcpp.Object
import Candcpp.Order.Intervals
import Mathlib.Data.Finset.Sort

/-!
# The calendar

The two classes of `729.cpp` that keep intervals of time and accept a new one only if it is disjoint
from those that have been accepted. `MyCalendar2` compares it with every one of them, and **always
answers as it should** (`Candcpp.MyCalendar2.simulates`). `MyCalendar` keeps a set that is ordered
by the beginnings, and looks at the two neighbours.

The neighbours are enough (`Candcpp.MyCalendar.scanLoop_iff`), but the code does not always get to
them. With a single interval in the set it rejects whatever begins before the end of that one, also
what ends before it begins; with more of them it accepts whatever begins behind them all, also what
begins before the last one ends. These two are the only calls that it answers otherwise
(`Candcpp.MyCalendar.Good`), so that **a sequence of calls is answered as it should be exactly if
there is no such call in it** (`Candcpp.MyCalendar.calendars_agree_iff`).

A `std::set` is a finite set, iterated in its order; the order of pairs is the lexicographic one.
-/

namespace Candcpp

open Cpp

/-! ### What is meant -/

open Classical in
/-- Whether an interval is disjoint from all that have been accepted. -/
noncomputable def isDisjoint (booked : List (ℤ × ℤ)) (p : ℤ × ℤ) : Bool :=
  decide (∀ q ∈ booked, Disjoint (Set.Ico q.1 q.2) (Set.Ico p.1 p.2))

/-- **The calendar**: the intervals that have been accepted, in the order of the calls. A call is
accepted exactly if its interval is disjoint from all of them. -/
noncomputable def calendar : Model (List (ℤ × ℤ)) (ℤ × ℤ) Bool where
  answer := isDisjoint
  next booked p := if isDisjoint booked p then booked ++ [p] else booked

/-- No interval overlaps a new one. -/
def Free (booked : List (ℤ × ℤ)) (p : ℤ × ℤ) : Prop := ∀ q ∈ booked, ¬ Overlap q p

instance (booked : List (ℤ × ℤ)) (p : ℤ × ℤ) : Decidable (Free booked p) :=
  inferInstanceAs (Decidable (∀ q ∈ booked, _))

variable {booked : List (ℤ × ℤ)} {p : ℤ × ℤ}

theorem isDisjoint_eq (h : Separate booked) (hp : p.1 < p.2) :
    isDisjoint booked p = decide (Free booked p) := by
  have hiff : isDisjoint booked p = true ↔
      ∀ q ∈ booked, Disjoint (Set.Ico q.1 q.2) (Set.Ico p.1 p.2) := by
    classical
    exact decide_eq_true_iff
  rw [Bool.eq_iff_iff, hiff, decide_eq_true_iff]
  exact forall₂_congr fun q hq => disjoint_Ico_iff (h.proper q hq) hp

theorem calendar_next (h : Separate booked) (hp : p.1 < p.2) :
    calendar.next booked p = if Free booked p then booked ++ [p] else booked := by
  show (if isDisjoint booked p then booked ++ [p] else booked) = _
  rw [isDisjoint_eq h hp]
  simp only [decide_eq_true_iff]

/-- What has been accepted is still separate after the next call. -/
theorem separate_next (h : Separate booked) (hp : p.1 < p.2) :
    Separate (calendar.next booked p) := by
  rw [calendar_next h hp]
  split_ifs with hfree
  · exact h.concat hp hfree
  · exact h

/-! ### The comparison with every interval -/

/-- `class MyCalendar2`. -/
structure MyCalendar2 where
  booked : List (ℤ × ℤ)

namespace MyCalendar2

/-- `MyCalendar2()`. -/
def create : MyCalendar2 where
  booked := []

/-- `for (auto &[l, r] : booked)`. -/
def bookedLoop (startTime endTime : ℤ) : List (ℤ × ℤ) → Bool
  | [] => true
  | p :: rest =>
    if p.1 < endTime ∧ startTime < p.2 then false else bookedLoop startTime endTime rest

/-- `book`. -/
def book (s : MyCalendar2) (startTime endTime : ℤ) : Bool × MyCalendar2 :=
  if bookedLoop startTime endTime s.booked then
    (true, { booked := s.booked ++ [(startTime, endTime)] })
  else
    (false, s)

/-- The calls of a calendar. -/
def object : Object MyCalendar2 (ℤ × ℤ) Bool where
  allowed := fun _ p => p.1 < p.2
  exec := fun s p => pure (s.book p.1 p.2)

theorem bookedLoop_eq (p : ℤ × ℤ) (booked : List (ℤ × ℤ)) :
    bookedLoop p.1 p.2 booked = decide (Free booked p) := by
  induction booked with
  | nil => exact (decide_eq_true fun q hq => absurd hq List.not_mem_nil).symm
  | cons q booked ih =>
    have hcond : q.1 < p.2 ∧ p.1 < q.2 ↔ Overlap q p := Iff.rfl
    rw [bookedLoop, ih]
    simp only [hcond]
    by_cases hover : Overlap q p
    · rw [if_pos hover]
      exact (decide_eq_false fun h => h q List.mem_cons_self hover).symm
    · rw [if_neg hover]
      refine decide_eq_decide.mpr ?_
      rw [Free, Free, List.forall_mem_cons, and_iff_right hover]

theorem book_eq (s : MyCalendar2) (p : ℤ × ℤ) : s.book p.1 p.2 =
    (decide (Free s.booked p), ⟨if Free s.booked p then s.booked ++ [p] else s.booked⟩) := by
  rw [book, bookedLoop_eq]
  by_cases hfree : Free s.booked p
  · rw [if_pos (decide_eq_true hfree), if_pos hfree, decide_eq_true hfree]
  · rw [if_neg (by rw [decide_eq_true_iff]; exact hfree), if_neg hfree, decide_eq_false hfree]

/-- **Every call is answered as it should be.** -/
theorem simulates :
    object.Simulates calendar (fun s booked => s.booked = booked ∧ Separate booked)
      fun _ _ => True := by
  rintro s booked p ⟨rfl, hsep⟩ hp -
  refine ⟨_, congrArg pure ((book_eq s p).trans ?_), (calendar_next hsep hp).symm,
    separate_next hsep hp⟩
  exact congrArg (Prod.mk · _) (isDisjoint_eq hsep hp).symm

end MyCalendar2

/-! ### The comparison with the neighbours -/

/-- `class MyCalendar`. -/
structure MyCalendar where
  st : Finset (ℤ ×ₗ ℤ)

namespace MyCalendar

/-- `MyCalendar()`. -/
def create : MyCalendar where
  st := ∅

/-- The elements of the set from `st.begin()` to `st.end()`. -/
def elements (st : Finset (ℤ ×ₗ ℤ)) : List (ℤ × ℤ) := (st.sort (· ≤ ·)).map ofLex

/-- What the loop of `book` finds at the first element `iter` that does not begin before. Where
`pre` is `st.end()`, it is `none`. -/
def isBetween (startTime endTime : ℤ) (pre : Option (ℤ × ℤ)) (iter : ℤ × ℤ) : Bool :=
  match pre with
  | some pre => ¬ (startTime < pre.2 ∨ endTime > iter.1)
  | none => ¬ endTime > iter.1

/-- The loop of `book` from `iter` on: whether it does not return `false`. -/
def scanLoop (startTime endTime : ℤ) (pre : Option (ℤ × ℤ)) : List (ℤ × ℤ) → Bool
  | [] => true
  | iter :: rest =>
    if iter.1 < startTime then
      scanLoop startTime endTime (some iter) rest
    else
      isBetween startTime endTime pre iter

/-- `book`. -/
def book (s : MyCalendar) (startTime endTime : ℤ) : Exec (Bool × MyCalendar) := do
  let inserted : MyCalendar := { st := insert (toLex (startTime, endTime)) s.st }
  if s.st.card = 0 then
    pure (true, inserted)
  else if s.st.card = 1 then
    let begin ← nth (elements s.st) 0
    if begin.2 > startTime then
      pure (false, s)
    else
      pure (true, inserted)
  else if scanLoop startTime endTime none (elements s.st) then
    pure (true, inserted)
  else
    pure (false, s)

/-- The calls of a calendar. -/
def object : Object MyCalendar (ℤ × ℤ) Bool where
  allowed := fun _ p => p.1 < p.2
  exec := fun s p => s.book p.1 p.2

/-- The intervals of the set are those that have been accepted. -/
structure Represents (s : MyCalendar) (booked : List (ℤ × ℤ)) : Prop where
  mem_iff : ∀ q, toLex q ∈ s.st ↔ q ∈ booked
  card_eq : s.st.card = booked.length
  separate : Separate booked

/-- **The calls that are answered as they should be**: all but those with an interval before the
only one that has been accepted, and those with one that begins behind several others, but before
all of them have ended. -/
def Good (booked : List (ℤ × ℤ)) (p : ℤ × ℤ) : Prop :=
  (∀ q, booked = [q] → ¬ p.2 ≤ q.1) ∧
    (2 ≤ booked.length → (∀ q ∈ booked, q.1 < p.1) → ∀ q ∈ booked, q.2 ≤ p.1)

variable {s : MyCalendar} {l : List (ℤ × ℤ)} {pre : Option (ℤ × ℤ)}

/-! ### The loop -/

theorem scanLoop_of_lt (hl : ∀ q ∈ l, q.1 < p.1) : scanLoop p.1 p.2 pre l = true := by
  induction l generalizing pre with
  | nil => rfl
  | cons q l ih =>
    rw [List.forall_mem_cons] at hl
    rw [scanLoop, if_pos hl.1, ih hl.2]

/-- **The neighbours are enough**, if there is an interval that does not begin before. -/
theorem scanLoop_iff (h : InOrder (pre.toList ++ l)) (hp : p.1 < p.2) (hpre : ∀ q ∈ pre, q.1 < p.1)
    (hl : ∃ q ∈ l, p.1 ≤ q.1) :
    scanLoop p.1 p.2 pre l = true ↔ Free (pre.toList ++ l) p := by
  have hfree : ∀ l, Free l p ↔ ¬ ∃ q ∈ l, Overlap q (p.1, p.2) := by
    intro l
    rw [Free]
    push Not
    rfl
  induction l generalizing pre with
  | nil =>
    obtain ⟨q, hq, -⟩ := hl
    exact absurd hq List.not_mem_nil
  | cons iter l ih =>
    rw [scanLoop]
    by_cases hlt : iter.1 < p.1
    · have hrest : ∃ q ∈ l, p.1 ≤ q.1 := by
        obtain ⟨q, hq, hle⟩ := hl
        rcases List.mem_cons.mp hq with rfl | hq
        · exact absurd hlt hle.not_gt
        · exact ⟨q, hq, hle⟩
      rw [if_pos hlt]
      cases pre with
      | none => exact @ih (some iter) h (fun q hq => Option.some.inj hq ▸ hlt) hrest
      | some pre =>
        refine (@ih (some iter) h.tail (fun q hq => Option.some.inj hq ▸ hlt) hrest).trans ?_
        rw [hfree, hfree]
        exact not_congr (h.exists_overlap_skip hlt).symm
    · rw [if_neg hlt]
      cases pre with
      | none =>
        rw [hfree, isBetween, decide_eq_true_iff]
        exact not_congr (h.exists_overlap_first (not_lt.mp hlt)).symm
      | some pre =>
        have hfirst := h.tail.exists_overlap_first (e := p.2) (not_lt.mp hlt)
        have hover : Overlap pre (p.1, p.2) ↔ p.1 < pre.2 :=
          and_iff_right ((hpre pre rfl).trans hp)
        rw [hfree, isBetween, decide_eq_true_iff, Option.toList_some, List.singleton_append,
          List.exists_mem_cons_iff, hfirst, hover]

/-! ### The set -/

theorem mem_elements {st : Finset (ℤ ×ₗ ℤ)} {q : ℤ × ℤ} : q ∈ elements st ↔ toLex q ∈ st := by
  rw [elements, List.mem_map]
  constructor
  · rintro ⟨x, hx, rfl⟩
    exact (Finset.mem_sort _).mp hx
  · exact fun hq => ⟨toLex q, (Finset.mem_sort _).mpr hq, rfl⟩

theorem length_elements (st : Finset (ℤ ×ₗ ℤ)) : (elements st).length = st.card := by
  rw [elements, List.length_map, Finset.length_sort]

theorem Represents.perm (h : Represents s booked) : (elements s.st).Perm booked := by
  have hnodup : (elements s.st).Nodup := (Finset.sort_nodup _ _).map ofLex.injective
  refine (hnodup.subperm fun q hq => (h.mem_iff q).mp (mem_elements.mp hq)).perm_of_length_le ?_
  rw [length_elements, h.card_eq]

/-- **The set is iterated in order.** -/
theorem Represents.inOrder (h : Represents s booked) : InOrder (elements s.st) := by
  refine h.separate.inOrder h.perm ?_
  rw [elements, List.pairwise_map]
  exact Finset.pairwise_sort s.st (· ≤ ·)

/-- The set after a call has been accepted. -/
theorem Represents.insert (h : Represents s booked) (hp : p.1 < p.2) (hfree : Free booked p) :
    Represents { st := insert (toLex p) s.st } (booked ++ [p]) where
  mem_iff := fun q => by
    rw [Finset.mem_insert, h.mem_iff, List.mem_append, List.mem_singleton, or_comm]
    rfl
  card_eq := by
    have hnew : toLex p ∉ s.st := fun hmem => hfree p ((h.mem_iff p).mp hmem) ⟨hp, hp⟩
    rw [Finset.card_insert_of_notMem hnew, h.card_eq, List.length_append, List.length_singleton]
  separate := h.separate.concat hp hfree

/-! ### A call -/

/-- The answer of the code, for the number of the intervals that have been accepted. -/
theorem answer_one {q : ℤ × ℤ} (hq : q.1 < q.2) (hp : p.1 < p.2) :
    (¬ q.2 > p.1 ↔ Free [q] p) ↔ Good [q] p := by
  have hfree : Free [q] p ↔ p.2 ≤ q.1 ∨ q.2 ≤ p.1 := by
    rw [Free, List.forall_mem_singleton, Overlap, not_and_or, not_lt, not_lt]
  have hgood : Good [q] p ↔ ¬ p.2 ≤ q.1 := by
    constructor
    · exact fun h => h.1 q rfl
    · intro h
      exact ⟨fun r hr => List.singleton_inj.mp hr ▸ h, fun hlen => absurd hlen (Nat.lt_irrefl 1)⟩
  rw [hfree, hgood]
  omega

theorem answer_several (h : Represents s booked) (hp : p.1 < p.2) (hlen : 2 ≤ booked.length) :
    (scanLoop p.1 p.2 none (elements s.st) = true ↔ Free booked p) ↔ Good booked p := by
  have hmem : ∀ q, q ∈ elements s.st ↔ q ∈ booked := fun q => h.perm.mem_iff
  have hgood : Good booked p ↔ ((∀ q ∈ booked, q.1 < p.1) → ∀ q ∈ booked, q.2 ≤ p.1) := by
    rw [Good, and_iff_right, forall_prop_of_true hlen]
    rintro q rfl
    exact absurd hlen (by simp)
  rw [hgood]
  by_cases hbehind : ∀ q ∈ booked, q.1 < p.1
  · rw [scanLoop_of_lt fun q hq => hbehind q ((hmem q).mp hq), forall_prop_of_true hbehind,
      eq_self, true_iff, Free]
    refine forall₂_congr fun q hq => ?_
    rw [Overlap, and_iff_right ((hbehind q hq).trans hp), not_lt]
  · have hsome : ∃ q ∈ elements s.st, p.1 ≤ q.1 := by
      push Not at hbehind
      obtain ⟨q, hq, hle⟩ := hbehind
      exact ⟨q, (hmem q).mpr hq, hle⟩
    have hscan := @scanLoop_iff p (elements s.st) none h.inOrder hp
      (fun q hq => absurd hq (Option.not_mem_none q)) hsome
    refine iff_of_true (hscan.trans ?_) fun hall => absurd hall hbehind
    exact forall_congr' fun q => imp_congr_left (hmem q)

/-- **What a call answers**, and when this is what it should. -/
theorem book_eq (h : Represents s booked) (hp : p.1 < p.2) : ∃ b,
    s.book p.1 p.2 = pure (b, if b then { st := insert (toLex p) s.st } else s) ∧
      ((b = true ↔ Free booked p) ↔ Good booked p) := by
  rw [book, h.card_eq]
  match booked, h with
  | [], h =>
    refine ⟨true, rfl, iff_of_true (iff_of_true rfl fun q hq => absurd hq List.not_mem_nil) ?_⟩
    exact ⟨fun q hq => (nomatch hq), fun hlen => absurd hlen (by decide)⟩
  | [q], h =>
    have helements : elements s.st = [q] := List.perm_singleton.mp h.perm
    have hq := h.separate.proper q List.mem_cons_self
    have hbegin : nth [q] 0 = pure q := rfl
    rw [List.length_singleton, if_neg Nat.one_ne_zero, if_pos rfl, helements, hbegin, pure_bind]
    refine ⟨decide (¬ q.2 > p.1), ?_, ?_⟩
    · by_cases hgt : q.2 > p.1
      · rw [if_pos hgt, decide_eq_false (not_not.mpr hgt), if_neg Bool.false_ne_true]
      · rw [if_neg hgt, decide_eq_true hgt, if_pos rfl]
    · rw [decide_eq_true_iff]
      exact answer_one hq hp
  | q :: r :: booked, h =>
    have hlen : 2 ≤ (q :: r :: booked).length := Nat.le_add_left 2 booked.length
    rw [if_neg (by omega), if_neg (by omega)]
    refine ⟨scanLoop p.1 p.2 none (elements s.st), ?_, answer_several h hp hlen⟩
    split_ifs with hscan
    · rw [hscan]
    · rw [Bool.not_eq_true] at hscan
      rw [hscan]

/-- **The calls that are good are answered as they should be.** -/
theorem simulates : object.Simulates calendar Represents Good := by
  intro s booked p h hp hgood
  obtain ⟨b, hrun, hiff⟩ := book_eq h hp
  have hb : b = true ↔ Free booked p := hiff.mpr hgood
  have hanswer : b = calendar.answer booked p := by
    refine Eq.trans ?_ (isDisjoint_eq h.separate hp).symm
    rw [Bool.eq_iff_iff, decide_eq_true_iff, hb]
  refine ⟨if b then { st := insert (toLex p) s.st } else s, hrun.trans (by rw [← hanswer]), ?_⟩
  rw [calendar_next h.separate hp]
  simp only [hb]
  split_ifs with hfree
  · exact h.insert hp hfree
  · exact h

/-- **The others are not.** -/
theorem ne_of_not_good {s : MyCalendar} (h : Represents s booked) (hp : p.1 < p.2)
    (hbad : ¬ Good booked p) (s' : MyCalendar) :
    object.exec s p ≠ pure (calendar.answer booked p, s') := by
  intro hexec
  obtain ⟨b, hrun, hiff⟩ := book_eq h hp
  have hb : b = calendar.answer booked p :=
    (Prod.mk.inj (Exec.pure_inj.mp (hrun.symm.trans hexec))).1
  refine hbad (hiff.mp ?_)
  rw [hb, show calendar.answer booked p = _ from isDisjoint_eq h.separate hp, decide_eq_true_iff]

/-! ### Every sequence of calls -/

/-- **Both classes give the same answers**, and a call is accepted exactly if its interval is
disjoint from all that have been accepted before. -/
def Agree (l : List (ℤ × ℤ)) : Prop :=
  ∃ answers s s', object.calls create l = pure (answers, s) ∧
    MyCalendar2.object.calls MyCalendar2.create l = pure (answers, s') ∧
      answers = calendar.answers [] l

/-- **The classes agree exactly where every call is good** when it is made. -/
theorem calendars_agree_iff (hl : ∀ p ∈ l, p.1 < p.2) : Agree l ↔ calendar.Guarded Good [] l := by
  have hstart : Represents create [] :=
    ⟨fun q => iff_of_false (Finset.notMem_empty _) List.not_mem_nil, rfl, separate_nil⟩
  have hall : object.AllowedAll create l := Object.allowedAll_of_mem (fun p hp _ => hl p hp) _
  have hiff :=
    simulates.answers_iff_guarded (fun s booked p h hp => ne_of_not_good h hp) hstart hall
  rw [← hiff]
  constructor
  · rintro ⟨answers, s, -, hcalls, -, rfl⟩
    exact ⟨s, hcalls⟩
  · rintro ⟨s, hcalls⟩
    obtain ⟨s', hcalls', -⟩ := MyCalendar2.simulates.calls ⟨rfl, separate_nil⟩
      (Object.allowedAll_of_mem (fun p hp _ => hl p hp) MyCalendar2.create)
      (calendar.guarded_of_forall (fun _ _ => trivial) [] l)
    exact ⟨_, s, s', hcalls, hcalls', rfl⟩

/-- The calls of the main program. -/
theorem calendars_agree_iff_main :
    Agree [(47, 50), (33, 41), (39, 45), (33, 42)] ↔
      calendar.Guarded Good [] [(47, 50), (33, 41), (39, 45), (33, 42)] :=
  calendars_agree_iff (by decide)

/-- **The classes do not always agree**: behind an interval, the first class accepts none in front
of it. -/
theorem calendars_differ : ¬ ∀ l : List (ℤ × ℤ), (∀ p ∈ l, p.1 < p.2) → Agree l := by
  intro hagree
  obtain ⟨answers, s, s', hcalls, hcalls', -⟩ := hagree [(47, 50), (33, 41)] (by decide)
  have hfirst : create.book 47 50 = pure (true, ⟨{toLex (47, 50)}⟩) := rfl
  have hsecond : book ⟨{toLex (47, 50)}⟩ 33 41 = pure (false, ⟨{toLex (47, 50)}⟩) := by
    rw [book, Finset.card_singleton, elements, Finset.sort_singleton]
    rfl
  have hanswers : object.calls create [(47, 50), (33, 41)] =
      pure ([true, false], ⟨{toLex (47, 50)}⟩) := by
    simp only [Object.calls, object, hfirst, hsecond, pure_bind]
  have hanswers' : MyCalendar2.object.calls MyCalendar2.create [(47, 50), (33, 41)] =
      pure ([true, true], ⟨[(47, 50), (33, 41)]⟩) := rfl
  have heq := (Prod.mk.inj (Exec.pure_inj.mp (hcalls.symm.trans hanswers))).1
  have heq' := (Prod.mk.inj (Exec.pure_inj.mp (hcalls'.symm.trans hanswers'))).1
  exact absurd (heq.symm.trans heq') (by decide)

end MyCalendar

end Candcpp
