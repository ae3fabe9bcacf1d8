import Ns2.Dccp.AckVectorStates

universe u

namespace Ns2

namespace DCCPAckVector

variable {α : Type u} {v w : DCCPAckVector} {items before after : List (BitVec 8)} {item : BitVec 8} {m : AckMap} {i n : ℕ}

/-- What a number of calls answer, one after another. -/
def answers (next : DCCPAckVector → Option α × DCCPAckVector) : ℕ → DCCPAckVector → List (Option α)
  | 0, _ => []
  | n + 1, v => (next v).1 :: answers next n (next v).2

/-- If each call answers the next entry of a list, all calls together answer the list. -/
theorem answers_eq {next : DCCPAckVector → Option α × DCCPAckVector} {l : List α} {At : ℕ → DCCPAckVector → Prop}
    (step : ∀ i v, At i v → (next v).1 = l[i]? ∧ At (i + 1) (next v).2) (start : At i v) (n : ℕ) :
    answers next n v = (List.range' i n).map fun j => l[j]? := by
  induction n generalizing i v with
  | zero => rfl
  | succ n ih =>
    obtain ⟨answer, later⟩ := step i v start
    rw [answers, answer, ih later, List.range'_succ, List.map_cons]

theorem Encodes.states_at {delta : ℕ} (encodes : Encodes v items m) (split : items = before ++ item :: after) (inside : delta < itemCount item) :
    m.states[(itemStates before).length + delta]? = some (itemState item) := by
  rw [← encodes.states]
  exact RunLength.At.getElem? ⟨split, Nat.le_add_right _ _, Nat.add_lt_add_left inside _⟩

/-- Where a descending walk stands after `i` packets: at the item of the last one. -/
structure WalkAt (v : DCCPAckVector) (items : List (BitVec 8)) (m : AckMap) (i : ℕ) (w : DCCPAckVector) : Prop where
  vector : w.vector = v.vector
  maxSize : w.maxSize = v.maxSize
  seqTail : w.seqTail = v.seqTail
  forward : w.pReverse = false
  walking : w.pWalking = decide (i < m.states.length)
  number : i < m.states.length → w.seqPWalk = m.head - i
  place : i < m.states.length → ∃ before item after, items = before ++ item :: after ∧
    w.pWalk = (v.head + before.length) % v.maxSize ∧ w.deltaPWalk ≤ itemCount item ∧ (itemStates before).length + w.deltaPWalk = i

theorem Encodes.startPacketWalk (encodes : Encodes v items m) : WalkAt v items m 0 v.startPacketWalk where
  vector := rfl
  maxSize := rfl
  seqTail := rfl
  forward := rfl
  walking := by
    have size := encodes.size_eq_zero
    rw [← List.length_eq_zero_iff] at size
    show decide (v.size ≠ 0) = _
    rw [decide_eq_decide, Ne, size]
    omega
  number _ := encodes.head
  place some := by
    obtain ⟨item, after, rfl⟩ : ∃ item after, items = item :: after := by
      refine List.exists_cons_of_ne_nil fun none => ?_
      rw [← encodes.states, none] at some
      exact absurd some (Nat.not_lt_zero 0)
    refine ⟨[], item, after, rfl, ?_, Nat.zero_le _, rfl⟩
    exact (Nat.mod_eq_of_lt (encodes.holds.head (by simp))).symm

theorem descending_eq (encodes : Encodes v items m) {state : DCCPPacketState} (found : m.states[i]? = some state) :
    m.descending[i]? = some (m.head - i, state) := by
  rw [AckMap.descending_getElem?, found]
  rfl

theorem WalkAt.next (encodes : Encodes v items m) (walk : WalkAt v items m i w) :
    w.nextPacket.1 = m.descending[i]? ∧ WalkAt v items m (i + 1) w.nextPacket.2 := by
  have fits := m.fits
  by_cases more : i < m.states.length
  · obtain ⟨before, item, after, split, place, low, index⟩ := walk.place more
    have holds := encodes.holds
    rw [split] at holds
    have here : w.vector w.pWalk = item := by
      rw [walk.vector, place]
      exact holds.place
    have tail := encodes.tail (List.ne_nil_of_length_pos (by omega))
    have bound := encodes.bound
    have number := walk.number more
    have going : (!w.pWalking || w.pReverse) = false := by
      rw [walk.walking, walk.forward, decide_eq_true more]
      rfl
    have ends : decide (w.seqPWalk ≠ w.seqTail) = decide (i + 1 < m.states.length) := by
      rw [decide_eq_decide, number, walk.seqTail]
      omega
    have onward : i + 1 < m.states.length → sub32 w.seqPWalk 1 = m.head - (i + 1) := by
      intro later
      rw [number, sub32_eq (by omega) (by omega)]
      omega
    unfold nextPacket
    rw [going, here]
    dsimp only
    rw [if_neg Bool.false_ne_true]
    by_cases beyond : itemRunlen item < w.deltaPWalk
    · -- on to the next item
      have count : w.deltaPWalk = itemCount item := by
        rw [itemCount] at low ⊢
        omega
      obtain ⟨next, rest, rfl⟩ : ∃ next rest, after = next :: rest := by
        refine List.exists_cons_of_ne_nil fun none => ?_
        rw [← encodes.states, split, none, itemStates_append, itemStates_cons, itemStates_nil, List.append_nil, List.length_append,
          List.length_replicate] at more
        omega
      have split' : items = (before ++ [item]) ++ next :: rest := by rw [split]; simp
      have length : (itemStates (before ++ [item])).length = i := by
        rw [itemStates_append, itemStates_cons, itemStates_nil, List.append_nil, List.length_append, List.length_replicate]
        omega
      have place' : (w.pWalk + 1) % w.maxSize = (v.head + (before ++ [item]).length) % v.maxSize := by
        rw [place, walk.maxSize, Nat.mod_add_mod, List.length_append, List.length_singleton, Nat.add_assoc]
      have holds' := encodes.holds
      rw [split'] at holds'
      have value : w.vector ((w.pWalk + 1) % w.maxSize) = next := by
        rw [walk.vector, place']
        exact holds'.place
      have found := encodes.states_at split' (show 0 < itemCount next from Nat.succ_pos _)
      rw [length, Nat.add_zero] at found
      simp only [if_pos beyond]
      refine ⟨?_, walk.vector, walk.maxSize, walk.seqTail, walk.forward, ends, onward, fun _ =>
        ⟨before ++ [item], next, rest, split', place', Nat.succ_pos _, ?_⟩⟩
      · rw [descending_eq encodes found, value, number]
      · show (itemStates (before ++ [item])).length + (0 + 1) = i + 1
        rw [length]
    · have inside : w.deltaPWalk < itemCount item := by
        rw [itemCount]
        omega
      have found := encodes.states_at split inside
      rw [index] at found
      simp only [if_neg beyond]
      refine ⟨?_, walk.vector, walk.maxSize, walk.seqTail, walk.forward, ends, onward, fun _ =>
        ⟨before, item, after, split, place, inside, ?_⟩⟩
      · rw [descending_eq encodes found, here, number]
      · show (itemStates before).length + (w.deltaPWalk + 1) = i + 1
        omega
  · have stopped : (!w.pWalking || w.pReverse) = true := by
      rw [walk.walking, decide_eq_false more]
      rfl
    unfold nextPacket
    rw [if_pos stopped]
    refine ⟨?_, walk.vector, walk.maxSize, walk.seqTail, walk.forward, ?_, fun later => by omega, fun later => by omega⟩
    · rw [AckMap.descending_getElem?, List.getElem?_eq_none (by omega)]
      rfl
    · rw [walk.walking, decide_eq_decide]
      omega

/-- A walk by `nextPacket` enumerates the map from its head downwards. -/
theorem Encodes.nextPackets (encodes : Encodes v items m) (n : ℕ) :
    answers nextPacket n v.startPacketWalk = (List.range n).map fun i => m.descending[i]? := by
  rw [answers_eq (fun _ _ walk => WalkAt.next encodes walk) encodes.startPacketWalk n, List.range_eq_range']

/-- Where an ascending walk stands after `i` packets. -/
structure WalkUpAt (v : DCCPAckVector) (items : List (BitVec 8)) (m : AckMap) (i : ℕ) (w : DCCPAckVector) : Prop where
  vector : w.vector = v.vector
  maxSize : w.maxSize = v.maxSize
  seqHead : w.seqHead = v.seqHead
  reverse : w.pReverse = true
  walking : w.pWalking = decide (i < m.states.length)
  number : i < m.states.length → w.seqPWalk + m.states.length = m.head + 1 + i
  place : i < m.states.length → ∃ before item after, items = before ++ item :: after ∧
    w.pWalk = (v.head + before.length) % v.maxSize ∧ w.deltaPWalk ≤ itemCount item ∧ (itemStates after).length + w.deltaPWalk = i

theorem Encodes.startReversePacketWalk (encodes : Encodes v items m) : WalkUpAt v items m 0 v.startReversePacketWalk where
  vector := rfl
  maxSize := rfl
  seqHead := rfl
  reverse := rfl
  walking := encodes.startPacketWalk.walking
  number some := encodes.tail (List.ne_nil_of_length_pos some)
  place some := by
    have nonempty : items ≠ [] := by
      rintro rfl
      rw [← encodes.states] at some
      exact absurd some (Nat.not_lt_zero 0)
    have length := List.length_pos_of_ne_nil nonempty
    refine ⟨items.dropLast, items.getLast nonempty, [], (List.dropLast_append_getLast nonempty).symm, ?_, Nat.zero_le _, rfl⟩
    rw [List.length_dropLast]
    exact encodes.holds.tail nonempty

theorem ascending_eq (encodes : Encodes v items m) {j : ℕ} {state : DCCPPacketState} (inside : i + j + 1 = m.states.length)
    (found : m.states[j]? = some state) : m.descending.reverse[i]? = some (m.head - j, state) := by
  have length : m.descending.length = m.states.length := List.length_mapIdx
  rw [List.getElem?_reverse (by omega), show m.descending.length - 1 - i = j by omega]
  exact descending_eq encodes found

theorem WalkUpAt.prev (encodes : Encodes v items m) (walk : WalkUpAt v items m i w) :
    w.prevPacket.1 = m.descending.reverse[i]? ∧ WalkUpAt v items m (i + 1) w.prevPacket.2 := by
  have fits := m.fits
  by_cases more : i < m.states.length
  · obtain ⟨before, item, after, split, place, low, index⟩ := walk.place more
    have holds := encodes.holds
    have fit := holds.laid.fits
    rw [split] at holds
    have here : w.vector w.pWalk = item := by
      rw [walk.vector, place]
      exact holds.place
    have total : m.states.length = (itemStates before).length + itemCount item + (itemStates after).length := by
      rw [← encodes.states, split, itemStates_append, itemStates_cons, List.length_append, List.length_append, List.length_replicate]
      omega
    have bound := encodes.bound
    have number := walk.number more
    have going : (!w.pWalking || !w.pReverse) = false := by
      rw [walk.walking, walk.reverse, decide_eq_true more]
      rfl
    have ends : decide (w.seqPWalk ≠ w.seqHead) = decide (i + 1 < m.states.length) := by
      rw [decide_eq_decide, walk.seqHead, encodes.head]
      omega
    have onward : i + 1 < m.states.length → (w.seqPWalk + 1) % 2 ^ 32 + m.states.length = m.head + 1 + (i + 1) := by
      intro later
      rw [Nat.mod_eq_of_lt (by omega)]
      omega
    unfold prevPacket
    rw [going, here]
    dsimp only
    rw [if_neg Bool.false_ne_true]
    by_cases beyond : itemRunlen item < w.deltaPWalk
    · -- on to the item before
      have count : w.deltaPWalk = itemCount item := by
        rw [itemCount] at low ⊢
        omega
      have some : before ≠ [] := by
        rintro rfl
        rw [itemStates_nil, List.length_nil] at total
        omega
      obtain ⟨rest, prev, rfl⟩ : ∃ rest prev, before = rest ++ [prev] := ⟨_, _, (List.dropLast_append_getLast some).symm⟩
      have split' : items = rest ++ prev :: (item :: after) := by rw [split]; simp
      rw [itemStates_append, itemStates_cons, itemStates_nil, List.append_nil, List.length_append, List.length_replicate] at total
      rw [split, List.length_append, List.length_append, List.length_singleton] at fit
      have length : (itemStates (item :: after)).length = i := by
        rw [itemStates_cons, List.length_append, List.length_replicate]
        omega
      have place' : (w.pWalk + w.maxSize - 1) % w.maxSize = (v.head + rest.length) % v.maxSize := by
        rw [place, walk.maxSize, Nat.add_sub_assoc (by omega), Nat.mod_add_mod, List.length_append, List.length_singleton,
          show v.head + (rest.length + 1) + (v.maxSize - 1) = v.head + rest.length + v.maxSize by omega, Nat.add_mod_right]
      have holds' := encodes.holds
      rw [split'] at holds'
      have value : w.vector ((w.pWalk + w.maxSize - 1) % w.maxSize) = prev := by
        rw [walk.vector, place']
        exact holds'.place
      have last : itemRunlen prev < itemCount prev := Nat.lt_succ_self _
      have found := encodes.states_at split' last
      have run : itemCount prev = itemRunlen prev + 1 := rfl
      simp only [if_pos beyond]
      refine ⟨?_, walk.vector, walk.maxSize, walk.seqHead, walk.reverse, ends, onward, fun _ =>
        ⟨rest, prev, item :: after, split', place', Nat.succ_pos _, ?_⟩⟩
      · rw [ascending_eq encodes (by omega) found, value]
        congr 2
        omega
      · show (itemStates (item :: after)).length + (0 + 1) = i + 1
        rw [length]
    · have inside : w.deltaPWalk ≤ itemRunlen item := not_lt.mp beyond
      have run : itemCount item = itemRunlen item + 1 := rfl
      have found := encodes.states_at split (show itemRunlen item - w.deltaPWalk < itemCount item by omega)
      simp only [if_neg beyond]
      refine ⟨?_, walk.vector, walk.maxSize, walk.seqHead, walk.reverse, ends, onward, fun _ =>
        ⟨before, item, after, split, place, Nat.succ_le_succ inside, ?_⟩⟩
      · rw [ascending_eq encodes (by omega) found, here]
        congr 2
        omega
      · show (itemStates after).length + (w.deltaPWalk + 1) = i + 1
        omega
  · have stopped : (!w.pWalking || !w.pReverse) = true := by
      rw [walk.walking, decide_eq_false more]
      rfl
    unfold prevPacket
    rw [if_pos stopped]
    refine ⟨?_, walk.vector, walk.maxSize, walk.seqHead, walk.reverse, ?_, fun later => by omega, fun later => by omega⟩
    · have length : m.descending.length = m.states.length := List.length_mapIdx
      rw [List.getElem?_eq_none (by rw [List.length_reverse]; omega)]
    · rw [walk.walking, decide_eq_decide]
      omega

/-- A walk by `prevPacket` enumerates the map from its tail upwards. -/
theorem Encodes.prevPackets (encodes : Encodes v items m) (n : ℕ) :
    answers prevPacket n v.startReversePacketWalk = (List.range n).map fun i => m.descending.reverse[i]? := by
  rw [answers_eq (fun _ _ walk => WalkUpAt.prev encodes walk) encodes.startReversePacketWalk n, List.range_eq_range']

/-- The intervals that the bytes of a vector stand for. -/
def intervals : ℕ → List (BitVec 8) → List (BitVec 8 × ℕ × ℕ × DCCPPacketState)
  | _, [] => []
  | first, item :: items => (item, first, first - itemRunlen item, itemState item) :: intervals (first - itemCount item) items

/-- The packets of an interval, from the number that starts it downwards. -/
def packetsOf (interval : BitVec 8 × ℕ × ℕ × DCCPPacketState) : List (ℕ × DCCPPacketState) :=
  (List.range (interval.2.1 + 1 - interval.2.2.1)).map fun i => (interval.2.1 - i, interval.2.2.2)

/-- Together, the intervals have the packets of the map. -/
theorem intervals_packets {first : ℕ} (fits : (itemStates items).length ≤ first + 1) :
    (intervals first items).flatMap packetsOf = (itemStates items).mapIdx fun i state => (first - i, state) := by
  induction items generalizing first with
  | nil => rfl
  | cons item items ih =>
    have run : itemCount item = itemRunlen item + 1 := rfl
    rw [itemStates_cons, List.length_append, List.length_replicate] at fits
    rw [intervals, List.flatMap_cons, ih (by omega), itemStates_cons, List.mapIdx_append, List.length_replicate]
    congr 1
    · refine List.ext_getElem ?_ ?_
      · simp only [packetsOf, List.length_map, List.length_range, List.length_mapIdx, List.length_replicate]
        omega
      · intro i _ _
        simp [packetsOf]
    · refine List.ext_getElem (by simp) ?_
      intro i _ _
      simp only [List.getElem_mapIdx, Prod.mk.injEq, and_true]
      omega

theorem Encodes.intervals_packets (encodes : Encodes v items m) : (intervals m.head items).flatMap packetsOf = m.descending := by
  have fits := m.fits
  rw [← encodes.states] at fits
  rw [DCCPAckVector.intervals_packets fits, encodes.states]
  rfl

theorem intervals_getElem? {first : ℕ} : (intervals first (before ++ item :: after))[before.length]? =
    some (item, first - (itemStates before).length, first - (itemStates before).length - itemRunlen item, itemState item) := by
  induction before generalizing first with
  | nil => rfl
  | cons one before ih =>
    rw [List.cons_append, intervals, List.length_cons, List.getElem?_cons_succ, ih, itemStates_cons, List.length_append,
      List.length_replicate, Nat.sub_sub]

theorem length_intervals {first : ℕ} : (intervals first items).length = items.length := by
  induction items generalizing first with
  | nil => rfl
  | cons item items ih => rw [intervals, List.length_cons, List.length_cons, ih]

/-- Where a walk stands after `i` intervals. -/
structure IntervalAt (v : DCCPAckVector) (items : List (BitVec 8)) (m : AckMap) (i : ℕ) (w : DCCPAckVector) : Prop where
  vector : w.vector = v.vector
  maxSize : w.maxSize = v.maxSize
  tail : w.tail = v.tail
  walking : w.iWalking = decide (i < items.length)
  place : i < items.length → w.iWalk = (v.head + i) % v.maxSize
  number : i < items.length → w.seqIWalk = m.head - (itemStates (items.take i)).length

theorem Encodes.startIntervalWalk (encodes : Encodes v items m) : IntervalAt v items m 0 v.startIntervalWalk where
  vector := rfl
  maxSize := rfl
  tail := rfl
  walking := by
    have size := encodes.holds.size
    show decide (v.size ≠ 0) = _
    rw [decide_eq_decide]
    omega
  place some := (Nat.mod_eq_of_lt (encodes.holds.head (List.ne_nil_of_length_pos some))).symm
  number _ := encodes.head

theorem IntervalAt.next (encodes : Encodes v items m) (walk : IntervalAt v items m i w) :
    w.nextInterval.1 = (intervals m.head items)[i]? ∧ IntervalAt v items m (i + 1) w.nextInterval.2 := by
  have fits := m.fits
  by_cases more : i < items.length
  · obtain ⟨before, item, after, split, rfl⟩ : ∃ before item after, items = before ++ item :: after ∧ before.length = i :=
      ⟨items.take i, items[i], items.drop (i + 1), by rw [List.cons_getElem_drop_succ, List.take_append_drop], by simp; omega⟩
    have holds := encodes.holds
    have fit := holds.laid.fits
    have tail := holds.tail (List.ne_nil_of_length_pos (by omega))
    rw [split] at holds
    have here : w.vector w.iWalk = item := by
      rw [walk.vector, walk.place more]
      exact holds.place
    have total : m.states.length = (itemStates before).length + itemCount item + (itemStates after).length := by
      rw [← encodes.states, split, itemStates_append, itemStates_cons, List.length_append, List.length_append, List.length_replicate]
      omega
    have run : itemCount item = itemRunlen item + 1 := rfl
    have bound := encodes.bound
    have number := walk.number more
    have first : items.take before.length = before := by rw [split, List.take_left]
    have passed : (itemStates (items.take (before.length + 1))).length = (itemStates before).length + itemCount item := by
      rw [split, List.take_append, List.take_of_length_le (Nat.le_succ _), Nat.add_sub_cancel_left, List.take_succ_cons, List.take_zero,
        itemStates_append, itemStates_cons, itemStates_nil, List.append_nil, List.length_append, List.length_replicate]
    rw [first] at number
    have going : (!w.iWalking) = false := by
      rw [walk.walking, decide_eq_true more]
      rfl
    have last : sub32 w.seqIWalk (itemRunlen item) = m.head - (itemStates before).length - itemRunlen item := by
      rw [number, sub32_eq (by omega) (by omega)]
    unfold nextInterval
    rw [going, here]
    dsimp only
    rw [if_neg Bool.false_ne_true, last, split, intervals_getElem?, ← split, number]
    refine ⟨rfl, walk.vector, walk.maxSize, walk.tail, ?_, ?_, ?_⟩
    · show decide (w.iWalk ≠ w.tail) = _
      rw [decide_eq_decide, walk.place more, walk.tail, tail]
      constructor
      · intro apart
        by_contra none
        rw [show items.length - 1 = before.length by omega] at apart
        exact apart rfl
      · intro later
        exact Ring.place_ne (by omega) (by omega) (by omega)
    · intro _
      show (w.iWalk + 1) % w.maxSize = _
      rw [walk.place more, walk.maxSize, Nat.mod_add_mod, Nat.add_assoc]
    · intro later
      have more' : 0 < (itemStates after).length := by
        refine Nat.lt_of_lt_of_le ?_ (itemStates_length after)
        rw [split, List.length_append, List.length_cons] at later
        omega
      show sub32 (m.head - (itemStates before).length - itemRunlen item) 1 = _
      rw [sub32_eq (by omega) (by omega), passed]
      omega
  · have stopped : (!w.iWalking) = true := by
      rw [walk.walking, decide_eq_false more]
      rfl
    unfold nextInterval
    rw [if_pos stopped]
    refine ⟨?_, walk.vector, walk.maxSize, walk.tail, ?_, fun later => by omega, fun later => by omega⟩
    · rw [List.getElem?_eq_none (by rw [length_intervals]; omega)]
    · rw [walk.walking, decide_eq_decide]
      omega

/-- A walk by `nextInterval` answers the intervals one after another. -/
theorem Encodes.nextIntervals (encodes : Encodes v items m) (n : ℕ) :
    answers nextInterval n v.startIntervalWalk = (List.range n).map fun i => (intervals m.head items)[i]? := by
  rw [answers_eq (fun _ _ walk => IntervalAt.next encodes walk) encodes.startIntervalWalk n, List.range_eq_range']

end DCCPAckVector

end Ns2
