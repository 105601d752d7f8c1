import Candcpp.Cpp.Exec
import Candcpp.Order.Bisect

/-!
# The closest room

`closestRoom` of `1847.cpp`: for each query the identifier of the room that is closest to a
preferred one, among the rooms that are large enough. The rooms are sorted by size;
`my_binary_search` finds the first one that is large enough, and then looks at the others one after
the other. It keeps the position of the best room so far in `id`, but when a room is as close as the
best one and has a smaller identifier, it is this identifier that is assigned to `id`.

Two rooms of different identifiers can be equally close only on the two sides of the preferred one,
so there are never three of them, and the wrong position is either replaced by a closer room or kept
to the end (`Candcpp.ClosestRoom.Best`). **So the answer is right exactly if no such pair decides
it, or if the identifier happens to be the position of the room**
(`Candcpp.ClosestRoom.closestRoom_iff`).

A position is not checked for overflow: a vector has at most as many elements as an `int` counts.
-/

namespace Candcpp

open Cpp

namespace ClosestRoom

/-! ### The code -/

/-- A room. -/
structure Room where
  /-- `room[0]`. -/
  roomId : ℤ
  /-- `room[1]`. -/
  size : ℤ
  deriving DecidableEq, Repr

/-- A query. -/
structure Query where
  /-- `q[0]`. -/
  preId : ℤ
  /-- `q[1]`. -/
  minSize : ℤ
  deriving DecidableEq, Repr

/-- The order by which the rooms are sorted. -/
def before (a b : Room) : Bool :=
  if a.size = b.size then a.roomId < b.roomId else a.size < b.size

/-- `while (left <= right)`: the first loop of `my_binary_search`. -/
def searchLoop (rooms : List Room) (target left right idx : ℤ) : Exec ℤ := do
  let +zeta searchLoop : type_of% searchLoop := by apply searchLoop
  if left ≤ right then
    let mid := left + (right - left).tdiv 2
    let room ← nth rooms mid
    if room.size < target then
      searchLoop rooms target (mid + 1) right idx
    else
      searchLoop rooms target left (mid - 1) mid
  else
    pure idx
partial_fixpoint

/-- `rooms[id]`, where `id` is none as long as it has not been assigned. -/
def roomAt (rooms : List Room) : Option ℤ → Exec Room
  | none => throw .outOfRange
  | some i => nth rooms i

/-- `for (; idx < rooms.size(); idx++)`: the second loop, which returns `id`. -/
def scanLoop (rooms : List Room) (preId idx value : ℤ) (id : Option ℤ) : Exec (Option ℤ) := do
  let +zeta scanLoop : type_of% scanLoop := by apply scanLoop
  if idx < rooms.length then
    let room ← nth rooms idx
    let d ← int (room.roomId - preId)
    let t := |d|
    if t < value then
      scanLoop rooms preId (idx + 1) t (some idx)
    else if t = value then
      let best ← roomAt rooms id
      if room.roomId < best.roomId then
        scanLoop rooms preId (idx + 1) value (some room.roomId)
      else
        scanLoop rooms preId (idx + 1) value id
    else
      scanLoop rooms preId (idx + 1) value id
  else
    pure id
partial_fixpoint

/-- `my_binary_search`. -/
def myBinarySearch (rooms : List Room) (target preId : ℤ) : Exec ℤ := do
  let idx ← searchLoop rooms target 0 (rooms.length - 1) (-1)
  if idx = -1 then
    pure (-1)
  else
    let id ← scanLoop rooms preId idx 100000000 none
    let room ← roomAt rooms id
    pure room.roomId

/-- `sort(rooms.begin(), rooms.end(), …)`. -/
def sorted (rooms : List Room) : List Room := rooms.mergeSort fun a b => !before b a

/-- `for (vector<int> q : queries)`. -/
def answers (rooms : List Room) : List Query → Exec (List ℤ)
  | [] => pure []
  | q :: queries => do
    let roomId ← myBinarySearch rooms q.minSize q.preId
    let ans ← answers rooms queries
    pure (roomId :: ans)

/-- `closestRoom`. -/
def closestRoom (rooms : List Room) (queries : List Query) : Exec (List ℤ) :=
  answers (sorted rooms) queries

/-! ### What is asked for -/

/-- The distance of a room from the preferred one. -/
def distance (q : Query) (r : Room) : ℤ := |r.roomId - q.preId|

/-- The room that a query asks for: large enough, as close as any other one that is, and of those
the one with the smallest identifier. -/
structure Closest (rooms : List Room) (q : Query) (r : Room) : Prop where
  mem : r ∈ rooms
  large : q.minSize ≤ r.size
  le : ∀ x ∈ rooms, q.minSize ≤ x.size → distance q r ≤ distance q x
  ties : ∀ x ∈ rooms, q.minSize ≤ x.size → distance q x = distance q r → r.roomId ≤ x.roomId

/-- The right answer to a query. -/
def Answers (rooms : List Room) (q : Query) (ans : ℤ) : Prop :=
  (∃ r, Closest rooms q r ∧ ans = r.roomId) ∨ ((∀ r ∈ rooms, r.size < q.minSize) ∧ ans = -1)

/-- Rooms and queries with identifiers as they are promised. -/
structure Limits (rooms : List Room) (queries : List Query) : Prop where
  nodup : (rooms.map Room.roomId).Nodup
  room : ∀ r ∈ rooms, 0 ≤ r.roomId ∧ r.roomId ≤ 10000000
  query : ∀ q ∈ queries, 0 ≤ q.preId ∧ q.preId ≤ 10000000

/-- Where a larger identifier is as close as the one that is asked for, and belongs to a smaller
room, the one that is asked for is the number of rooms that are sorted before its own. -/
def TieFits (rooms : List Room) (q : Query) : Prop :=
  ∀ r x, Closest rooms q r → x ∈ rooms → q.minSize ≤ x.size → distance q x = distance q r →
    r.roomId < x.roomId → x.size < r.size → (rooms.filter (before · r)).length = r.roomId

/-! ### The order of the rooms -/

variable {rooms L : List Room} {queries : List Query} {q : Query} {a b c r x y : Room}
  {target left right idx value : ℤ} {id : Option ℤ} {found : Option ℤ} {s n i j : ℕ}

theorem before_iff : before a b ↔ a.size < b.size ∨ a.size = b.size ∧ a.roomId < b.roomId := by
  rw [before]
  split_ifs with h
  · simp [h]
  · simp [h]

theorem before_trans (h : before a b) (h' : before b c) : before a c := by
  rw [before_iff] at *
  omega

theorem not_before_self (a : Room) : ¬ before a a := by
  rw [before_iff]
  omega

/-- Rooms in the order of their sizes, without a second one of the same identifier. -/
structure Arranged (L : List Room) : Prop where
  order : L.Pairwise fun a b => before a b
  nodup : (L.map Room.roomId).Nodup

/-- **The rooms are sorted.** -/
theorem arranged_sorted (h : (rooms.map Room.roomId).Nodup) : Arranged (sorted rooms) := by
  have hperm : (sorted rooms).Perm rooms := List.mergeSort_perm _ _
  have hnodup : ((sorted rooms).map Room.roomId).Nodup := (hperm.map _).nodup_iff.mpr h
  refine ⟨?_, hnodup⟩
  have hle : (sorted rooms).Pairwise fun a b => !before b a := by
    refine List.pairwise_mergeSort ?_ ?_ rooms
    · intro a b c hab hbc
      simp only [Bool.not_eq_true', ← Bool.not_eq_true, before_iff] at *
      omega
    · intro a b
      simp only [Bool.or_eq_true, Bool.not_eq_true', ← Bool.not_eq_true, before_iff]
      omega
  have hne : (sorted rooms).Pairwise fun a b => a.roomId ≠ b.roomId := List.pairwise_map.mp hnodup
  refine (hle.and hne).imp fun {a b} hab => ?_
  simp only [Bool.not_eq_true', ← Bool.not_eq_true, before_iff] at *
  omega

namespace Arranged

theorem before_of_lt (h : Arranged L) (hi : L[i]? = some a) (hj : L[j]? = some b) (hij : i < j) :
    before a b := by
  obtain ⟨hi', rfl⟩ := List.getElem?_eq_some_iff.mp hi
  obtain ⟨hj', rfl⟩ := List.getElem?_eq_some_iff.mp hj
  exact List.pairwise_iff_getElem.mp h.order i j hi' hj' hij

/-- An identifier is that of one position. -/
theorem eq_of_roomId (h : Arranged L) (hi : L[i]? = some a) (hj : L[j]? = some b)
    (heq : a.roomId = b.roomId) : i = j := by
  have hi' : (L.map Room.roomId)[i]? = some a.roomId := by rw [List.getElem?_map, hi]; rfl
  have hj' : (L.map Room.roomId)[j]? = some a.roomId := by rw [List.getElem?_map, hj, heq]; rfl
  have hlt : i < (L.map Room.roomId).length := (List.getElem?_eq_some_iff.mp hi').1
  exact (List.getElem?_inj hlt h.nodup).mp (hi'.trans hj'.symm)

/-- The rooms that come before a room are those in front of its position. -/
theorem length_filter_before (h : Arranged L) (hi : L[i]? = some r) :
    (L.filter (before · r)).length = i := by
  have hlt := (List.getElem?_eq_some_iff.mp hi).1
  have htake : (L.take i).filter (before · r) = L.take i := by
    refine List.filter_eq_self.mpr fun a ha => ?_
    obtain ⟨j, hj, rfl⟩ := List.mem_take_iff_getElem.mp ha
    exact h.before_of_lt (List.getElem?_eq_getElem (by omega)) hi (by omega)
  have hdrop : (L.drop i).filter (before · r) = [] := by
    refine List.filter_eq_nil_iff.mpr fun a ha hbefore => ?_
    obtain ⟨j, hj, hget⟩ := List.mem_drop_iff_getElem.mp ha
    have haj : L[i + j]? = some a := List.getElem?_eq_some_iff.mpr ⟨by omega, hget⟩
    rcases Nat.eq_zero_or_pos j with rfl | hpos
    · rw [Option.some.inj (haj.symm.trans hi)] at hbefore
      exact not_before_self r hbefore
    · exact not_before_self _ (before_trans (h.before_of_lt hi haj (by omega)) hbefore)
  rw [← List.take_append_drop i L, List.filter_append, htake, hdrop, List.append_nil,
    List.length_take]
  omega

/-- The rooms from some position on are those of a size or more. -/
theorem size_le (h : Arranged L) (hi : L[i]? = some a) (hj : L[j]? = some b) (hij : i ≤ j) :
    a.size ≤ b.size := by
  rcases Nat.eq_or_lt_of_le hij with rfl | hlt
  · rw [Option.some.inj (hi.symm.trans hj)]
  · have hbefore := before_iff.mp (h.before_of_lt hi hj hlt)
    omega

end Arranged

/-! ### The first loop -/

/-- The rooms at a position, if there is one, and behind it are large enough. -/
def LargeFrom (L : List Room) (target y : ℤ) : Prop := ∀ r, L[y.toNat]? = some r → target ≤ r.size

theorem Arranged.largeFrom_mono (h : Arranged L) {y z : ℤ} (hyz : y ≤ z)
    (hy : LargeFrom L target y) : LargeFrom L target z := by
  intro r hr
  obtain ⟨hlt, -⟩ := List.getElem?_eq_some_iff.mp hr
  have hle : y.toNat ≤ z.toNat := Int.toNat_le_toNat hyz
  have hget := List.getElem?_eq_getElem (hle.trans_lt hlt)
  exact (hy _ hget).trans (h.size_le hget hr hle)

/-- The position where the rooms begin that are large enough, if there is one. -/
def Start (L : List Room) (target idx : ℤ) : Prop :=
  (∃ s : ℕ, idx = s ∧ s < L.length ∧ ∀ i r, L[i]? = some r → (target ≤ r.size ↔ s ≤ i)) ∨
    (idx = -1 ∧ ∀ r ∈ L, r.size < target)

/-- **The first loop** finds where they begin. -/
theorem searchLoop_eq (h : Arranged L)
    (hb : Bracket (LargeFrom L target) 0 (L.length - 1) left right found) :
    ∃ idx, searchLoop L target left right (found.getD (-1)) = pure idx ∧ Start L target idx := by
  induction hn : (right + 1 - left).toNat using Nat.strong_induction_on
    generalizing left right found with
  | _ n ih =>
    have hbot := hb.bot_le
    have htop := hb.le_top
    by_cases hle : left ≤ right
    · obtain ⟨mid, hmid⟩ : ∃ mid : ℕ, left + (right - left).tdiv 2 = mid := by
        rw [Int.tdiv_eq_ediv_of_nonneg (by omega)]
        exact ⟨(left + (right - left) / 2).toNat, by omega⟩
      have hbounds : left ≤ mid ∧ (mid : ℤ) ≤ right := by
        rw [← hmid, Int.tdiv_eq_ediv_of_nonneg (by omega)]
        omega
      obtain ⟨room, hroom⟩ : ∃ room, L[mid]? = some room :=
        ⟨_, List.getElem?_eq_getElem (show mid < L.length by omega)⟩
      rw [searchLoop, if_pos hle]
      dsimp only
      rw [hmid, nth_eq hroom, pure_bind]
      split_ifs with hsmall
      · refine ih _ (by omega) (hb.raise hbounds.1 hbounds.2 (fun hlarge => ?_) fun a b _ hab ha =>
          h.largeFrom_mono hab ha) rfl
        have := hlarge room hroom
        omega
      · refine ih _ (by omega) (hb.lower hbounds.1 hbounds.2 fun r hr => ?_) rfl
        rw [Int.toNat_natCast, hroom] at hr
        rw [← Option.some.inj hr]
        exact not_lt.mp hsmall
    · rw [searchLoop, if_neg hle]
      refine ⟨_, rfl, ?_⟩
      cases found with
      | none =>
        refine .inr ⟨rfl, fun r hr => ?_⟩
        obtain ⟨i, hi⟩ := List.getElem?_of_mem hr
        have hlt := (List.getElem?_eq_some_iff.mp hi).1
        by_contra hlarge
        refine hb.not_ok (not_le.mp hle) (Int.natCast_nonneg i) (by omega) fun r' hr' => ?_
        rw [Int.toNat_natCast, hi] at hr'
        rw [← Option.some.inj hr']
        exact not_lt.mp hlarge
      | some s =>
        have hleast := hb.isLeast (not_le.mp hle)
        have hs := hb.found_le
        lift s to ℕ using hleast.1.1
        refine .inl ⟨s, rfl, by omega, fun i r hr => ⟨fun hlarge => ?_, fun hsi => ?_⟩⟩
        · refine Int.ofNat_le.mp (hleast.2 ⟨Int.natCast_nonneg i, fun r' hr' => ?_⟩)
          rw [Int.toNat_natCast, hr] at hr'
          rwa [← Option.some.inj hr']
        · exact h.largeFrom_mono (Int.ofNat_le.mpr hsi) hleast.1.2 r (by simpa using hr)

/-! ### The second loop -/

/-- **What the second loop has found** among the rooms from the position `s` on and before `n`: the
first one of the closest is `r` at the position `i`. Then `id` is this position, or the identifier
of a later one that is as close. -/
structure Best (L : List Room) (q : Query) (s n i : ℕ) (r : Room) (value : ℤ) (id : Option ℤ) :
    Prop where
  le : s ≤ i
  lt : i < n
  room : L[i]? = some r
  value_eq : distance q r = value
  least : ∀ j x, s ≤ j → j < n → L[j]? = some x → value ≤ distance q x
  first : ∀ j x, s ≤ j → j < i → L[j]? = some x → value < distance q x
  kept : (id = some (i : ℤ) ∧ ∀ j x, i < j → j < n → L[j]? = some x → distance q x = value →
      r.roomId < x.roomId) ∨
    ∃ j x, i < j ∧ j < n ∧ L[j]? = some x ∧ distance q x = value ∧ x.roomId < r.roomId ∧
      id = some x.roomId

/-- Rooms that are equally close are on the two sides of the preferred one. -/
theorem opposite (h : distance q a = distance q b) (hne : a.roomId ≠ b.roomId) :
    a.roomId + b.roomId = 2 * q.preId := by
  rcases abs_eq_abs.mp h with h | h
  · omega
  · omega

namespace Best

/-- A closer room. -/
theorem closer (hroom : L[n]? = some x) (hs : s ≤ n)
    (hleast : ∀ j y, s ≤ j → j < n → L[j]? = some y → distance q x < distance q y) :
    Best L q s (n + 1) n x (distance q x) (some n) where
  le := hs
  lt := Nat.lt_succ_self n
  room := hroom
  value_eq := rfl
  least := by
    intro j y hj hjn hy
    rcases Nat.lt_succ_iff_lt_or_eq.mp hjn with hlt | rfl
    · exact (hleast j y hj hlt hy).le
    · rw [Option.some.inj (hroom.symm.trans hy)]
  first := hleast
  kept := .inl ⟨rfl, fun j y hj hjn => by omega⟩

/-- A room that is not as close. -/
theorem farther (h : Best L q s n i r value id) (hroom : L[n]? = some x)
    (hlt : value < distance q x) : Best L q s (n + 1) i r value id where
  le := h.le
  lt := h.lt.trans (Nat.lt_succ_self n)
  room := h.room
  value_eq := h.value_eq
  least := by
    intro j y hj hjn hy
    rcases Nat.lt_succ_iff_lt_or_eq.mp hjn with hjn | rfl
    · exact h.least j y hj hjn hy
    · rw [← Option.some.inj (hroom.symm.trans hy)]
      exact hlt.le
  first := h.first
  kept := by
    rcases h.kept with ⟨hid, hlater⟩ | ⟨j, y, hj, hjn, hy⟩
    · refine .inl ⟨hid, fun j y hj hjn hy heq => ?_⟩
      rcases Nat.lt_succ_iff_lt_or_eq.mp hjn with hjn | rfl
      · exact hlater j y hj hjn hy heq
      · rw [← Option.some.inj (hroom.symm.trans hy)] at heq
        omega
    · exact .inr ⟨j, y, hj, hjn.trans (Nat.lt_succ_self n), hy⟩

/-- **A room that is as close** is the only one: what is kept is still the position of the first. -/
theorem kept_of_eq (h : Best L q s n i r value id) (hL : Arranged L) (hroom : L[n]? = some x)
    (heq : distance q x = value) : id = some (i : ℤ) ∧ r.roomId ≠ x.roomId := by
  have hlt := h.lt
  have hne : r.roomId ≠ x.roomId := fun hid => by
    have := hL.eq_of_roomId h.room hroom hid
    omega
  refine ⟨?_, hne⟩
  rcases h.kept with ⟨hid, -⟩ | ⟨j, y, hj, hjn, hy, hyeq, hless, -⟩
  · exact hid
  -- a third one would have the identifier of one of the two
  · have hxr := opposite (h.value_eq.trans heq.symm) hne
    have hyr := opposite (hyeq.trans h.value_eq.symm) hless.ne
    have := hL.eq_of_roomId hy hroom (by omega)
    omega

/-- A room that is as close. -/
theorem tie (h : Best L q s n i r value id) (hL : Arranged L) (hroom : L[n]? = some x)
    (heq : distance q x = value) :
    Best L q s (n + 1) i r value (if x.roomId < r.roomId then some x.roomId else id) where
  le := h.le
  lt := h.lt.trans (Nat.lt_succ_self n)
  room := h.room
  value_eq := h.value_eq
  least := by
    intro j y hj hjn hy
    rcases Nat.lt_succ_iff_lt_or_eq.mp hjn with hjn | rfl
    · exact h.least j y hj hjn hy
    · rw [← Option.some.inj (hroom.symm.trans hy)]
      exact heq.ge
  first := h.first
  kept := by
    obtain ⟨hid, hne⟩ := h.kept_of_eq hL hroom heq
    split_ifs with hless
    · exact .inr ⟨n, x, h.lt, Nat.lt_succ_self n, hroom, heq, hless, rfl⟩
    · refine .inl ⟨hid, fun j y hj hjn hy hyeq => ?_⟩
      rcases Nat.lt_succ_iff_lt_or_eq.mp hjn with hjn | rfl
      -- an earlier one would be a third one
      · have := (h.kept_of_eq hL hroom heq).1
        rcases h.kept with ⟨-, hlater⟩ | ⟨j', y', hj', hjn', hy', hyeq', hless', hid'⟩
        · exact hlater j y hj hjn hy hyeq
        · have hxr := opposite (h.value_eq.trans heq.symm) hne
          have hyr := opposite (hyeq'.trans h.value_eq.symm) hless'.ne
          have := hL.eq_of_roomId hy' hroom (by omega)
          omega
      · rw [← Option.some.inj (hroom.symm.trans hy)]
        omega

end Best

/-- The identifiers of the rooms and of the query are as they are promised. -/
def Bounded (L : List Room) (q : Query) : Prop :=
  (∀ r ∈ L, 0 ≤ r.roomId ∧ r.roomId ≤ 10000000) ∧ 0 ≤ q.preId ∧ q.preId ≤ 10000000

theorem Bounded.int_eq (h : Bounded L q) (hr : r ∈ L) :
    int (r.roomId - q.preId) = pure (r.roomId - q.preId) := by
  have hroom := h.1 r hr
  have hquery := h.2
  refine Cpp.int_eq ?_ ?_
  · simp only [intMin]
    omega
  · simp only [intMax]
    omega

theorem Bounded.distance_lt (h : Bounded L q) (hr : r ∈ L) : distance q r < 100000000 := by
  have hroom := h.1 r hr
  have hquery := h.2
  rw [distance, abs_lt]
  omega

/-- **The second loop** finds the best room, or the identifier of one. -/
theorem scanLoop_eq (hL : Arranged L) (hq : Bounded L q) (h : Best L q s n i r value id)
    (hn : n ≤ L.length) : ∃ i' r' value' id', scanLoop L q.preId n value id = pure id' ∧
      Best L q s L.length i' r' value' id' := by
  induction hk : L.length - n generalizing n i r value id with
  | zero =>
    obtain rfl : n = L.length := by omega
    rw [scanLoop, if_neg (by omega)]
    exact ⟨i, r, value, id, rfl, h⟩
  | succ k ih =>
    have hroom := List.getElem?_eq_getElem (show n < L.length by omega)
    have hmem := List.mem_of_getElem? hroom
    rw [scanLoop, if_pos (by omega), nth_eq hroom, pure_bind, hq.int_eq hmem, pure_bind]
    have hcast : (n : ℤ) + 1 = (n + 1 : ℕ) := by push_cast; rfl
    rw [hcast]
    change ∃ i' r' value' id', (if distance q L[n] < value then _ else _) = _ ∧ _
    split_ifs with hlt heq
    · refine ih (.closer hroom (h.le.trans h.lt.le) fun j y hj hjn hy => ?_) (by omega) (by omega)
      exact hlt.trans_le (h.least j y hj hjn hy)
    · obtain ⟨hid, -⟩ := h.kept_of_eq hL hroom heq
      have hnext := h.tie hL hroom heq
      have hread : roomAt L id = pure r := by rw [hid, roomAt, nth_eq h.room]
      rw [hread, pure_bind]
      split_ifs with hless
      · rw [if_pos hless] at hnext
        exact ih hnext (by omega) (by omega)
      · rw [if_neg hless] at hnext
        exact ih hnext (by omega) (by omega)
    · have hfar := lt_of_le_of_ne (not_lt.mp hlt) (Ne.symm heq)
      exact ih (h.farther hroom hfar) (by omega) (by omega)

/-! ### The answers -/

/-- **What the second loop finds** from where the rooms begin that are large enough. -/
theorem scanLoop_start (hL : Arranged L) (hq : Bounded L q) (hs : s < L.length) :
    ∃ i r value id, scanLoop L q.preId s 100000000 none = pure id ∧
      Best L q s L.length i r value id := by
  have hroom := List.getElem?_eq_getElem hs
  have hmem := List.mem_of_getElem? hroom
  rw [scanLoop, if_pos (by omega), nth_eq hroom, pure_bind, hq.int_eq hmem, pure_bind]
  have hcast : (s : ℤ) + 1 = (s + 1 : ℕ) := by push_cast; rfl
  have hlt : |L[s].roomId - q.preId| < 100000000 := hq.distance_lt hmem
  rw [hcast, if_pos hlt]
  exact scanLoop_eq hL hq (.closer hroom le_rfl fun j y hj hjn => by omega) hs

/-- The room that is asked for is the only one. -/
theorem Closest.unique (h : Closest L q a) (h' : Closest L q b) : a.roomId = b.roomId := by
  have heq : distance q a = distance q b :=
    le_antisymm (h.le b h'.mem h'.large) (h'.le a h.mem h.large)
  exact le_antisymm (h.ties b h'.mem h'.large heq.symm) (h'.ties a h.mem h.large heq)

theorem Closest.eq (hL : Arranged L) (h : Closest L q a) (h' : Closest L q b) : a = b := by
  obtain ⟨i, hi⟩ := List.getElem?_of_mem h.mem
  obtain ⟨j, hj⟩ := List.getElem?_of_mem h'.mem
  obtain rfl := hL.eq_of_roomId hi hj (h.unique h')
  exact Option.some.inj (hi.symm.trans hj)

theorem Closest.answers_iff (h : Closest L q r) {ans : ℤ} : Answers L q ans ↔ ans = r.roomId := by
  refine ⟨?_, fun hans => .inl ⟨r, h, hans⟩⟩
  rintro (⟨x, hx, rfl⟩ | ⟨hsmall, -⟩)
  · exact hx.unique h
  · exact absurd h.large (not_le.mpr (hsmall r h.mem))

namespace Best

/-- The first of the closest rooms is asked for, unless a later one has a smaller identifier. -/
theorem closest (h : Best L q s L.length i r value id)
    (hs : ∀ i r, L[i]? = some r → (q.minSize ≤ r.size ↔ s ≤ i))
    (hlater : ∀ j x, i < j → j < L.length → L[j]? = some x → distance q x = value →
      r.roomId < x.roomId) : Closest L q r where
  mem := List.mem_of_getElem? h.room
  large := (hs i r h.room).mpr h.le
  le := by
    intro x hx hlarge
    obtain ⟨j, hj⟩ := List.getElem?_of_mem hx
    rw [h.value_eq]
    exact h.least j x ((hs j x hj).mp hlarge) (List.getElem?_eq_some_iff.mp hj).1 hj
  ties := by
    intro x hx hlarge heq
    obtain ⟨j, hj⟩ := List.getElem?_of_mem hx
    rcases lt_trichotomy i j with hij | rfl | hji
    · exact (hlater j x hij (List.getElem?_eq_some_iff.mp hj).1 hj (heq.trans h.value_eq)).le
    · rw [Option.some.inj (hj.symm.trans h.room)]
    · have hlt := h.first j x ((hs j x hj).mp hlarge) hji hj
      rw [heq, h.value_eq] at hlt
      omega

/-- A later room that is as close and has a smaller identifier is asked for. -/
theorem closest_later (h : Best L q s L.length i r value id)
    (hs : ∀ i r, L[i]? = some r → (q.minSize ≤ r.size ↔ s ≤ i)) (hij : i < j)
    (hx : L[j]? = some x) (heq : distance q x = value) (hless : x.roomId < r.roomId) :
    Closest L q x where
  mem := List.mem_of_getElem? hx
  large := (hs j x hx).mpr (h.le.trans hij.le)
  le := by
    intro y hy hlarge
    obtain ⟨k, hk⟩ := List.getElem?_of_mem hy
    rw [heq]
    exact h.least k y ((hs k y hk).mp hlarge) (List.getElem?_eq_some_iff.mp hk).1 hk
  ties := by
    intro y _ _ hyeq
    by_contra hlt
    -- a third one cannot be as close
    have hrx := opposite (heq.trans h.value_eq.symm) hless.ne
    have hyx := opposite hyeq (by omega)
    omega

end Best

/-- What decides where two rooms are equally close. -/
theorem tieFits_iff (hL : Arranged L) (hi : L[i]? = some r) (hj : L[j]? = some x) (hij : i < j)
    (hx : Closest L q x) (hlarge : q.minSize ≤ r.size) (heq : distance q r = distance q x)
    (hless : x.roomId < r.roomId) : TieFits L q ↔ (j : ℤ) = x.roomId := by
  have hcount := hL.length_filter_before hj
  constructor
  · intro h
    have hbefore := before_iff.mp (hL.before_of_lt hi hj hij)
    rw [← h x r hx (List.mem_of_getElem? hi) hlarge heq hless (by omega), hcount]
  · intro h a b ha _ _ _ _ _
    rw [ha.eq hL hx, hcount, h]

/-- **An answer is right** exactly if no two equally close rooms mislead the second loop. -/
theorem myBinarySearch_iff (hL : Arranged L) (hq : Bounded L q) :
    (∃ ans, myBinarySearch L q.minSize q.preId = pure ans ∧ Answers L q ans) ↔ TieFits L q := by
  have hinit : Bracket (LargeFrom L q.minSize) 0 (L.length - 1) 0 (L.length - 1) none :=
    Bracket.init _ (by omega)
  obtain ⟨idx, hidx, hstart⟩ := searchLoop_eq hL hinit
  change searchLoop L q.minSize 0 (L.length - 1) (-1) = pure idx at hidx
  rw [myBinarySearch, hidx, pure_bind]
  rcases hstart with ⟨s, rfl, hlt, hs⟩ | ⟨rfl, hsmall⟩
  · obtain ⟨i, r, value, id, hscan, hbest⟩ := scanLoop_start hL hq hlt
    rw [if_neg (by omega), hscan, pure_bind]
    rcases hbest.kept with ⟨rfl, hlater⟩ | ⟨j, x, hij, hj, hx, heq, hless, rfl⟩
    · have hclosest := hbest.closest hs hlater
      rw [roomAt, nth_eq hbest.room, pure_bind]
      refine iff_of_true ⟨_, rfl, hclosest.answers_iff.mpr rfl⟩ ?_
      -- a smaller room that is as close would have been the first one
      intro a b ha hb hlarge hab _ hsize
      obtain rfl := ha.eq hL hclosest
      obtain ⟨k, hk⟩ := List.getElem?_of_mem hb
      have hki : k < i := by
        by_contra hik
        have := hL.size_le hbest.room hk (not_lt.mp hik)
        omega
      have hfar := hbest.first k b ((hs k b hk).mp hlarge) hki hk
      rw [hab, hbest.value_eq] at hfar
      omega
    · have hclosest := hbest.closest_later hs hij hx heq hless
      rw [tieFits_iff hL hbest.room hx hij hclosest ((hs i r hbest.room).mpr hbest.le)
        (hbest.value_eq.trans heq.symm) hless, roomAt]
      constructor
      · rintro ⟨ans, hans, hright⟩
        obtain ⟨y, hy, hans⟩ := Exec.bind_eq_pure.mp hans
        obtain ⟨hnonneg, hy⟩ := nth_eq_pure.mp hy
        rw [hclosest.answers_iff, ← Exec.pure_inj.mp hans] at hright
        have := hL.eq_of_roomId hy hx hright
        omega
      · intro hjx
        rw [← hjx, nth_eq hx, pure_bind]
        exact ⟨_, rfl, hclosest.answers_iff.mpr rfl⟩
  · rw [if_pos rfl]
    refine iff_of_true ⟨_, rfl, .inr ⟨hsmall, rfl⟩⟩ fun a _ ha => ?_
    exact absurd ha.large (not_le.mpr (hsmall a ha.mem))

/-! ### All queries -/

theorem answers_forall₂ {R : Query → ℤ → Prop} (L : List Room) (queries : List Query) :
    (∃ ans, answers L queries = pure ans ∧ List.Forall₂ R queries ans) ↔
      ∀ q ∈ queries, ∃ a, myBinarySearch L q.minSize q.preId = pure a ∧ R q a := by
  induction queries with
  | nil => exact iff_of_true ⟨[], rfl, .nil⟩ fun q hq => absurd hq List.not_mem_nil
  | cons q queries ih =>
    rw [List.forall_mem_cons, ← ih]
    constructor
    · rintro ⟨ans, hans, hR⟩
      obtain ⟨a, ha, hans⟩ := Exec.bind_eq_pure.mp hans
      obtain ⟨as, has, hans⟩ := Exec.bind_eq_pure.mp hans
      rw [← Exec.pure_inj.mp hans, List.forall₂_cons] at hR
      exact ⟨⟨a, ha, hR.1⟩, as, has, hR.2⟩
    · rintro ⟨⟨a, ha, hRa⟩, as, has, hRas⟩
      refine ⟨a :: as, ?_, .cons hRa hRas⟩
      rw [answers, ha, pure_bind, has, pure_bind]

theorem closest_perm (h : L.Perm rooms) : Closest L q r ↔ Closest rooms q r := by
  constructor
  · rintro ⟨hmem, hlarge, hle, hties⟩
    exact ⟨h.mem_iff.mp hmem, hlarge, fun x hx => hle x (h.mem_iff.mpr hx),
      fun x hx => hties x (h.mem_iff.mpr hx)⟩
  · rintro ⟨hmem, hlarge, hle, hties⟩
    exact ⟨h.mem_iff.mpr hmem, hlarge, fun x hx => hle x (h.mem_iff.mp hx),
      fun x hx => hties x (h.mem_iff.mp hx)⟩

/-- What is asked for does not depend on the order of the rooms. -/
theorem answers_perm (h : L.Perm rooms) {ans : ℤ} : Answers L q ans ↔ Answers rooms q ans := by
  simp only [Answers, closest_perm h, h.mem_iff]

theorem tieFits_perm (h : L.Perm rooms) : TieFits L q ↔ TieFits rooms q := by
  simp only [TieFits, closest_perm h, h.mem_iff, (h.filter _).length_eq]

theorem myBinarySearch_sorted_iff (h : Limits rooms queries) (hq : q ∈ queries) :
    (∃ ans, myBinarySearch (sorted rooms) q.minSize q.preId = pure ans ∧ Answers rooms q ans) ↔
      TieFits rooms q := by
  have hperm : (sorted rooms).Perm rooms := List.mergeSort_perm _ _
  have hbounded : Bounded (sorted rooms) q :=
    ⟨fun r hr => h.room r (hperm.mem_iff.mp hr), h.query q hq⟩
  rw [← tieFits_perm hperm, ← myBinarySearch_iff (arranged_sorted h.nodup) hbounded]
  simp only [answers_perm hperm]

/-- The function answers every query right. -/
def Right (rooms : List Room) (queries : List Query) : Prop :=
  ∃ ans, closestRoom rooms queries = pure ans ∧ List.Forall₂ (Answers rooms) queries ans

/-- **When the rooms are the closest ones**: for different identifiers up to `10 ^ 7`, `closestRoom`
answers every query, without reading a room that does not exist, exactly if for each query no larger
identifier is as close as the right one and belongs to a smaller room, or the right one is the
number of rooms that are sorted before its room. -/
theorem closestRoom_iff (h : Limits rooms queries) :
    Right rooms queries ↔ ∀ q ∈ queries, TieFits rooms q := by
  rw [Right, closestRoom, answers_forall₂]
  exact forall₂_congr fun q hq => myBinarySearch_sorted_iff h hq

/-- The identifier that is taken for a position is that position. -/
theorem closestRoom_iff_two : Right [⟨3, 1⟩, ⟨1, 2⟩] [⟨2, 1⟩] := by
  refine (closestRoom_iff ⟨by decide, by decide, by decide⟩).mpr fun q hq r x hr _ _ _ _ _ => ?_
  obtain rfl := List.mem_singleton.mp hq
  rcases List.mem_pair.mp hr.mem with rfl | rfl
  · exact absurd (hr.ties ⟨1, 2⟩ (by decide) (by decide) (by decide)) (by decide)
  · decide

/-- Of two rooms the smaller one has the larger identifier, and the query is in the middle. -/
theorem not_closestRoom : ¬ ∀ rooms queries, Limits rooms queries → Right rooms queries := by
  intro h
  have hlim : Limits [⟨4, 1⟩, ⟨2, 2⟩] [⟨3, 1⟩] := ⟨by decide, by decide, by decide⟩
  have hright := h _ _ hlim
  rw [Right, closestRoom, answers_forall₂] at hright
  have hfits := (myBinarySearch_sorted_iff hlim (List.mem_singleton.mpr rfl)).mp
    (hright ⟨3, 1⟩ (List.mem_singleton.mpr rfl))
  have hclosest : Closest [⟨4, 1⟩, ⟨2, 2⟩] ⟨3, 1⟩ ⟨2, 2⟩ :=
    ⟨by decide, by decide, by decide, by decide⟩
  exact absurd (hfits ⟨2, 2⟩ ⟨4, 1⟩ hclosest (by decide) (by decide) (by decide) (by decide)
    (by decide)) (by decide)

end ClosestRoom

end Candcpp
