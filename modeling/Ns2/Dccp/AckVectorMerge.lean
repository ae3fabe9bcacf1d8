import Ns2.Dccp.AckVectorHistory

namespace Ns2

namespace DCCPAckVector

section

variable (fresh : Fresh)

/-- The loop of `mergeWith` over the packets of `ackv`. -/
def mergeFrom : ℕ → DCCPAckVector → DCCPAckVector → DCCPAckVector × DCCPAckVector
  | 0, ackv, v => (v, ackv)
  | fuel + 1, ackv, v =>
    match ackv.prevPacket with
    | (none, ackv) => (v, ackv)
    | (some (seqnum, state), ackv) =>
      let (added, v) := addPacket fresh seqnum state nesting v
      if !added ∧ v.seqTail ≤ seqnum then (v, ackv) else mergeFrom fuel ackv v

/-- Beside its result, the call hands out both vectors. The loop ends, as the numbers of `ackv` do. -/
def mergeWith (ackv v : DCCPAckVector) : Bool × DCCPAckVector × DCCPAckVector :=
  if ackv.size = 0 then (true, v, ackv)
  else if v.size = 0 then
    match ackv.getAckVector with
    | none => (false, v, ackv)
    | some vect =>
      let (result, v) := setAckVector fresh vect ackv.seqHead ackv.ene nesting v
      (result, v, ackv)
  else (false, mergeFrom fresh (sub32 ackv.seqHead ackv.seqTail + 2) ackv.startReversePacketWalk v)

end

/-- The matrix that the constructor of the TCP-like agent sets for the sender. -/
def senderCons : DCCPPacketState → DCCPPacketState → DCCPPacketState
  | .recv, .notRecv => .recv
  | .recv, state => state
  | .ecn, .reserved => .reserved
  | .ecn, _ => .ecn
  | .reserved, _ => .reserved
  | .notRecv, state => state

/-- What is known of a packet after a report that may have it. -/
def combine (c : DCCPPacketState → DCCPPacketState → DCCPPacketState) (old : Option DCCPPacketState) :
    Option DCCPPacketState → DCCPPacketState
  | none => old.getD .notRecv
  | some state => c (old.getD .notRecv) state

/-- The map after some of the packets of another one have been added to it. -/
structure Combined (c : DCCPPacketState → DCCPPacketState → DCCPPacketState) (m : AckMap) (news : ℕ → Option DCCPPacketState)
    (m' : AckMap) : Prop where
  nonempty : m'.states ≠ []
  tail : m'.head + m.states.length = m.head + m'.states.length
  head : m.head ≤ m'.head
  inside : ∀ j state, news j = some state → j ≤ m'.head
  get : ∀ j, m.head + 1 ≤ j + m.states.length → j ≤ m'.head → m'.get j = some (combine c (m.get j) (news j))

variable {fresh : Fresh} {v w a : DCCPAckVector} {items : List (BitVec 8)} {m m' n : AckMap} {k : ℕ} {state : DCCPPacketState}
  {c : DCCPPacketState → DCCPPacketState → DCCPPacketState} {news : ℕ → Option DCCPPacketState}

theorem Combined.start (nonempty : m.states ≠ []) : Combined c m (fun _ => none) m := by
  refine ⟨nonempty, rfl, le_rfl, nofun, fun j above below => ?_⟩
  obtain ⟨state, found⟩ := Option.isSome_iff_exists.mp (AckMap.get_isSome_iff.mpr ⟨below, above⟩)
  rw [found]
  rfl

/-- One packet more. It is refused only if it is older than the tail. -/
theorem Combined.add (combined : Combined c m news m') (fresh : news k = none) (neutral : ∀ state, c .notRecv state = state) :
    Combined c m (Function.update news k (some state)) (m'.addPacket c k state).2 ∧
      ((m'.addPacket c k state).1 = false → k + m.states.length ≤ m.head) := by
  have tail := combined.tail
  have fits := m'.fits
  have length := List.length_pos_of_ne_nil combined.nonempty
  have other {j : ℕ} (apart : j ≠ k) : Function.update news k (some state) j = news j := Function.update_of_ne apart _ _
  unfold AckMap.addPacket
  rw [if_neg combined.nonempty]
  by_cases above : m'.head < k
  · rw [dif_pos above]
    have unknown : m.get k = none := AckMap.get_above (combined.head.trans_lt above)
    refine ⟨⟨List.cons_ne_nil _ _, ?_, combined.head.trans above.le, fun j new found => ?_, fun j low high => ?_⟩,
      fun refused => absurd refused.symm Bool.false_ne_true⟩
    · simp only [AckMap.extend, List.length_cons, List.length_append, List.length_replicate]
      omega
    · by_cases same : j = k
      · exact same.le
      · rw [other same] at found
        exact (combined.inside j new found).trans above.le
    · rw [AckMap.get_extend above]
      by_cases same : j = k
      · subst same
        rw [if_pos rfl, Function.update_self, unknown]
        exact congrArg some (neutral state).symm
      rw [if_neg same, other same]
      have small : j ≤ k := high
      by_cases skipped : m'.head < j ∧ j < k
      · rw [if_pos skipped, AckMap.get_above (combined.head.trans_lt skipped.1)]
        cases new : news j with
        | none => rfl
        | some s => exact absurd (combined.inside j s new) (by omega)
      · rw [if_neg skipped]
        exact combined.get j low (by omega)
  rw [dif_neg above]
  have below : k ≤ m'.head := not_lt.mp above
  have within (j : ℕ) (new : DCCPPacketState) (found : Function.update news k (some state) j = some new) : j ≤ m'.head := by
    by_cases same : j = k
    · exact same.trans_le below
    · rw [other same] at found
      exact combined.inside j new found
  cases known : m'.get k with
  | none =>
    have old : k + m.states.length ≤ m.head := by
      by_contra late
      have found := combined.get k (by omega) below
      rw [known] at found
      exact absurd found (by simp)
    refine ⟨⟨combined.nonempty, tail, combined.head, within, fun j low high => ?_⟩, fun _ => old⟩
    rw [other (by omega)]
    exact combined.get j low high
  | some before =>
    have isKnown : (m'.get k).isSome := by rw [known]; rfl
    refine ⟨⟨?_, ?_, combined.head, within, fun j low high => ?_⟩, fun refused => absurd refused.symm Bool.false_ne_true⟩
    · exact List.ne_nil_of_length_pos (length.trans_eq (List.length_set ..).symm)
    · exact tail.trans (congrArg (m.head + ·) (List.length_set ..).symm)
    · rw [AckMap.get_set isKnown]
      by_cases same : j = k
      · subst same
        rw [Function.update_self, Function.update_self]
        have found := combined.get j low high
        rw [known, fresh] at found
        cases Option.some.inj found
        rfl
      · rw [Function.update_of_ne same, other same]
        exact combined.get j low high

/-- The packets of a map with numbers below a bound. -/
def below (n : AckMap) (bound : ℕ) (j : ℕ) : Option DCCPPacketState := if j < bound then n.get j else none

theorem update_below (known : n.get k = some state) : Function.update (below n k) k (some state) = below n (k + 1) := by
  funext j
  unfold below
  by_cases same : j = k
  · subst same
    rw [Function.update_self, if_pos (Nat.lt_succ_self j), known]
  · rw [Function.update_of_ne same]
    by_cases less : j < k
    · rw [if_pos less, if_pos (Nat.lt_succ_of_lt less)]
    · rw [if_neg less, if_neg (by omega)]

theorem below_all : below n (n.head + 1) = n.get := by
  funext j
  unfold below
  split
  · rfl
  · exact (AckMap.get_above (by omega)).symm

theorem below_tail : below n (n.head + 1 - n.states.length) = fun _ => none := by
  funext j
  unfold below
  split
  · rw [← Option.not_isSome_iff_eq_none, AckMap.get_isSome_iff]
    omega
  · rfl

def addCall (packet : ℕ × DCCPPacketState) : AckVectorCall := .addPacket packet.1 packet.2

/-- From anywhere in its walk, the loop adds the rest of the packets. -/
theorem Encodes.mergeFrom {itemsA : List (BitVec 8)} {i fuel : ℕ} (encodesA : Encodes a itemsA n) (encodes : Encodes v items m')
    (walk : WalkUpAt a itemsA n i w) (combined : Combined v.ackvCons m (below n (n.head + 1 - n.states.length + i)) m')
    (neutral : ∀ state, v.ackvCons .notRecv state = state)
    (room : (machine fresh).Along Admitted v ((n.descending.reverse.drop i).map addCall)) (within : i ≤ n.states.length)
    (enough : n.states.length < i + fuel) :
    ∃ items' last, Encodes (DCCPAckVector.mergeFrom fresh fuel w v).1 items' last ∧ Combined v.ackvCons m n.get last ∧
      (DCCPAckVector.mergeFrom fresh fuel w v).1.ackvCons = v.ackvCons := by
  have fits := n.fits
  have length : n.descending.reverse.length = n.states.length := (List.length_reverse ..).trans List.length_mapIdx
  induction fuel generalizing v w items m' i with
  | zero => exact absurd enough (by omega)
  | succ fuel ih =>
    obtain ⟨found, walk'⟩ := WalkUpAt.prev encodesA walk
    rw [DCCPAckVector.mergeFrom]
    by_cases more : i < n.states.length
    · obtain ⟨state, stored⟩ : ∃ state, n.states[n.states.length - 1 - i]? = some state :=
        ⟨_, List.getElem?_eq_getElem (by omega)⟩
      obtain ⟨k, number⟩ : ∃ k, n.head + 1 - n.states.length + i = k := ⟨_, rfl⟩
      have answer := ascending_eq encodesA (show i + (n.states.length - 1 - i) + 1 = n.states.length by omega) stored
      rw [show n.head - (n.states.length - 1 - i) = k by omega] at answer
      have known : n.get k = some state := by
        rw [AckMap.get_eq_some_iff, show n.head - k = n.states.length - 1 - i by omega]
        exact ⟨by omega, stored⟩
      rw [answer] at found
      have split : n.descending.reverse.drop i = (k, state) :: n.descending.reverse.drop (i + 1) := by
        rw [List.drop_eq_getElem_cons (by omega)]
        exact congrArg (· :: _) (Option.some.inj ((List.getElem?_eq_getElem _).symm.trans answer))
      rw [split, List.map_cons] at room
      have small : k < 2 ^ 31 := by
        have bound := encodesA.bound
        omega
      have written : ¬Unwritten v state := fun unwritten => combined.nonempty (encodes.size_eq_zero.mp unwritten.1)
      have admitted : _ ∧ v.addSize k state ≤ maxAckvSize := room.head
      obtain ⟨x, done, updated⟩ : ∃ x, DCCPAckVector.addPacket fresh k state 17 v = _ ∧ Updated v x _ :=
        encodes.addPacket (deep_nesting encodes.holds.positive) small admitted.2 written
      obtain ⟨items', encodes'⟩ := updated.encodes
      rw [number] at combined
      obtain ⟨combined', refused⟩ := combined.add (if_neg (lt_irrefl k)) neutral
      rw [update_below known] at combined'
      have taken : (machine fresh).step v (addCall (k, state)) = some (x, (m'.addPacket v.ackvCons k state).1, none) := by
        show some (DCCPAckVector.call fresh v (.addPacket k state)) = _
        rw [DCCPAckVector.call, nesting, done]
      have goes : ¬((!(m'.addPacket v.ackvCons k state).1) = true ∧ x.seqTail ≤ k) := by
        rintro ⟨off, low⟩
        have old := refused (Bool.not_eq_true' _ ▸ off)
        have tail := combined'.tail
        have first := encodes'.tail combined'.nonempty
        omega
      have onward : Combined x.ackvCons m (below n (n.head + 1 - n.states.length + (i + 1))) (m'.addPacket v.ackvCons k state).2 := by
        rw [updated.ackvCons, ← Nat.add_assoc, number]
        exact combined'
      have rest := ih encodes' walk' onward (updated.ackvCons ▸ neutral) (room.tail taken) (by omega) (by omega)
      rw [updated.ackvCons] at rest
      generalize w.prevPacket = next at found rest
      obtain ⟨_, y⟩ := next
      cases found
      dsimp only at rest ⊢
      rw [nesting, done]
      dsimp only
      rw [if_neg goes]
      exact rest
    · obtain rfl : i = n.states.length := by omega
      rw [List.getElem?_eq_none (by omega)] at found
      rw [show n.head + 1 - n.states.length + n.states.length = n.head + 1 by omega, below_all] at combined
      generalize w.prevPacket = next at found
      obtain ⟨_, y⟩ := next
      cases found
      exact ⟨items, m', encodes, combined, rfl⟩

/-- The other vector is only walked through. -/
theorem Encodes.mergeFrom_walked {itemsA : List (BitVec 8)} (fuel : ℕ) (encodes : Encodes w itemsA n) (v : DCCPAckVector) :
    Encodes (DCCPAckVector.mergeFrom fresh fuel w v).2 itemsA n ∧ (DCCPAckVector.mergeFrom fresh fuel w v).2.ackvCons = w.ackvCons := by
  induction fuel generalizing w v with
  | zero => exact ⟨encodes, rfl⟩
  | succ fuel ih =>
    have walked : Encodes w.prevPacket.2 itemsA n ∧ w.prevPacket.2.ackvCons = w.ackvCons := by
      unfold prevPacket
      split
      · exact ⟨encodes, rfl⟩
      · exact ⟨encodes.walked .., rfl⟩
    rw [DCCPAckVector.mergeFrom]
    generalize w.prevPacket = next at walked
    obtain ⟨packet, y⟩ := next
    cases packet with
    | none => exact walked
    | some packet =>
      dsimp only
      split
      · exact walked
      · obtain ⟨encodes', same⟩ := ih walked.1 (DCCPAckVector.addPacket fresh packet.1 packet.2 nesting v).2
        exact ⟨encodes', same.trans walked.2⟩

/-- The packets of the vector, from its tail upwards. -/
def packets (a : DCCPAckVector) : List (ℕ × DCCPPacketState) :=
  (answers prevPacket (sub32 a.seqHead a.seqTail + 1) a.startReversePacketWalk).filterMap id

theorem filterMap_getElem? {α : Type} (l : List α) : ((List.range l.length).map fun i => l[i]?).filterMap id = l := by
  rw [List.filterMap_map]
  refine Eq.trans (List.filterMap_congr (g := fun i => l[i]?) fun i _ => rfl) ?_
  induction l with
  | nil => rfl
  | cons x l ih =>
    rw [List.length_cons, List.range_succ_eq_map, List.filterMap_cons_some (b := x) (by simp), List.filterMap_map]
    exact congrArg (x :: ·) ((List.filterMap_congr fun i _ => by simp).trans ih)

theorem Encodes.count (encodes : Encodes v items m) (nonempty : m.states ≠ []) : sub32 v.seqHead v.seqTail + 1 = m.states.length := by
  have tail := encodes.tail nonempty
  have length := List.length_pos_of_ne_nil nonempty
  have head := encodes.head
  have bound := encodes.bound
  rw [sub32_eq (by omega) (by omega)]
  omega

theorem Encodes.packets (encodes : Encodes v items m) (nonempty : m.states ≠ []) : v.packets = m.descending.reverse := by
  have length : m.descending.reverse.length = m.states.length := (List.length_reverse ..).trans List.length_mapIdx
  rw [DCCPAckVector.packets, encodes.count nonempty, encodes.prevPackets, ← length]
  exact filterMap_getElem? _

/-- No packet of `ackv` needs more than `DCCP_MAX_ACKV_SIZE` bytes. -/
def MergeRoom (fresh : Fresh) (v ackv : DCCPAckVector) : Prop :=
  v.size ≠ 0 → ∀ calls, ackv.packets.map addCall = calls → (machine fresh).Along Admitted v calls

instance (fresh : Fresh) (v ackv : DCCPAckVector) : Decidable (MergeRoom fresh v ackv) :=
  decidable_of_iff (v.size ≠ 0 → (machine fresh).Along Admitted v (ackv.packets.map addCall))
    ⟨fun along some _ same => same ▸ along some, fun room some => room some _ rfl⟩

/-- A packet that was not received is known by the new state only, and a state is combined with itself. -/
structure LawfulCons (c : DCCPPacketState → DCCPPacketState → DCCPPacketState) : Prop where
  neutral : ∀ state, c .notRecv state = state
  same : ∀ state, c state state = state

theorem lawfulCons_of_source (source : c = cons ∨ c = senderCons) : LawfulCons c := by
  rcases source with rfl | rfl <;> exact ⟨by intro state; cases state <;> rfl, by intro state; cases state <;> rfl⟩

/-- The number is not older than the tail of the vector, if that has one. -/
def Keeps (v : DCCPAckVector) (k : ℕ) : Prop := v.size = 0 ∨ v.seqTail ≤ k

/-- The numbers of both vectors from the tail on, with the combined states, and no older ones. -/
structure MergedStates (v ackv w : DCCPAckVector) : Prop where
  combined : ∀ k, v.Keeps k → (v.getState k).isSome ∨ (ackv.getState k).isSome →
    w.getState k = some (v.ackvCons ((v.getState k).getD .notRecv) ((ackv.getState k).getD ((v.getState k).getD .notRecv)))
  tail : v.size ≠ 0 → w.seqTail = v.seqTail
  older : v.size ≠ 0 → ∀ k < v.seqTail, w.getState k = none

/-- Every packet of `ackv` that is not older than the tail was merged. -/
def AllMerged (v ackv w : DCCPAckVector) : Prop := ∀ k state, v.Keeps k → ackv.getState k = some state →
  w.getState k = some (v.ackvCons ((v.getState k).getD .notRecv) state)

/-- What `mergeWith` is to do, its result included. -/
structure Merges (v ackv : DCCPAckVector) (done : Bool × DCCPAckVector × DCCPAckVector) : Prop where
  states : MergedStates v ackv done.2.1
  result : done.1 = true ↔ AllMerged v ackv done.2.1

theorem MergedStates.all (merged : MergedStates v a w) : AllMerged v a w := fun k state kept found => by
  have both := merged.combined k kept (Or.inr (by rw [found]; rfl))
  rwa [found] at both

/-- The vector without packets takes those of the other one. -/
theorem Encodes.importAll {itemsA : List (BitVec 8)} (encodes : Encodes v items m) (encodesA : Encodes a itemsA n) (empty : v.size = 0)
    (some : a.size ≠ 0) : ∃ w, mergeWith fresh a v = (true, w, a) ∧ w.ackvCons = v.ackvCons ∧ ∃ items', Encodes w items' n := by
  have bytes : itemStates itemsA = n.states := encodesA.states
  have length : itemsA.length ≤ maxAckvSize := by
    have fits := encodesA.holds.laid.fits
    have limit := encodesA.holds.limit
    omega
  obtain ⟨w, done, encodes', _, _, same⟩ : ∃ w, DCCPAckVector.setAckVector fresh itemsA a.seqHead a.ene 17 v = _ ∧ Encodes w itemsA _ ∧ _ :=
    encodes.holds.setAckVector (deep_nesting encodes.holds.positive) length (encodesA.head ▸ encodesA.bound)
      (bytes ▸ encodesA.head ▸ n.fits)
  have whole : AckMap.ofStates a.seqHead (itemStates itemsA) = n := by
    rw [AckMap.ofStates, dif_pos (bytes ▸ encodesA.head ▸ n.fits)]
    exact AckMap.ext encodesA.head bytes
  rw [whole] at encodes'
  refine ⟨w, ?_, same, itemsA, encodes'⟩
  rw [mergeWith, if_neg some, if_pos empty, getAckVector, if_neg some]
  dsimp only
  rw [encodesA.holds.copied, nesting, done]

/-- `mergeWith` merges the states whatever its result is, and that is true only where one of the vectors has no packets. -/
theorem Encodes.mergeWith {itemsA : List (BitVec 8)} (encodes : Encodes v items m) (encodesA : Encodes a itemsA n)
    (lawful : LawfulCons v.ackvCons) (room : MergeRoom fresh v a) :
    MergedStates v a (DCCPAckVector.mergeWith fresh a v).2.1 ∧
      ((DCCPAckVector.mergeWith fresh a v).1 = true ↔ v.size = 0 ∨ a.size = 0) ∧
      (DCCPAckVector.mergeWith fresh a v).2.1.ackvCons = v.ackvCons ∧
      ∃ items' last, Encodes (DCCPAckVector.mergeWith fresh a v).2.1 items' last := by
  by_cases none : a.size = 0
  · -- nothing to merge
    have unknown (k : ℕ) : a.getState k = Option.none := if_pos (Or.inl none)
    have alone : DCCPAckVector.mergeWith fresh a v = (true, v, a) := if_pos none
    rw [alone]
    refine ⟨⟨fun k _ either => ?_, fun _ => rfl, fun _ k old => if_pos (Or.inr (Or.inr old))⟩, ?_, rfl, items, m, encodes⟩
    · rw [unknown] at either ⊢
      obtain ⟨state, found⟩ := Option.isSome_iff_exists.mp (either.resolve_right (by simp))
      rw [found]
      exact congrArg some (lawful.same state).symm
    · exact iff_of_true rfl (Or.inr none)
  by_cases empty : v.size = 0
  · -- all packets are new
    obtain ⟨w, done, same, items', encodes'⟩ : ∃ w, DCCPAckVector.mergeWith fresh a v = (true, w, a) ∧ _ :=
      encodes.importAll encodesA empty none
    have unknown (k : ℕ) : v.getState k = Option.none := if_pos (Or.inl empty)
    rw [done]
    refine ⟨⟨fun k _ either => ?_, fun some => absurd empty some, fun some => absurd empty some⟩, iff_of_true rfl (Or.inl empty), same,
      items', n, encodes'⟩
    rw [unknown] at either ⊢
    obtain ⟨state, found⟩ := Option.isSome_iff_exists.mp (either.resolve_left (by simp))
    have copied : w.getState k = some state := by rw [encodes'.getState, ← encodesA.getState, found]
    rw [copied, found]
    exact congrArg some (lawful.neutral state).symm
  -- packet by packet
  have nonempty : m.states ≠ [] := mt encodes.size_eq_zero.mpr empty
  have nonemptyA : n.states ≠ [] := mt encodesA.size_eq_zero.mpr none
  have loop : DCCPAckVector.mergeWith fresh a v =
      (false, DCCPAckVector.mergeFrom fresh (sub32 a.seqHead a.seqTail + 2) a.startReversePacketWalk v) :=
    (if_neg none).trans (if_neg empty)
  have admitted := room empty _ rfl
  rw [encodesA.packets nonemptyA] at admitted
  have count := encodesA.count nonemptyA
  have start : Combined v.ackvCons m (below n (n.head + 1 - n.states.length + 0)) m := by
    rw [Nat.add_zero, below_tail]
    exact .start nonempty
  obtain ⟨items', last, encodes', combined, same⟩ : ∃ items' last,
      Encodes (DCCPAckVector.mergeFrom fresh (sub32 a.seqHead a.seqTail + 2) a.startReversePacketWalk v).1 items' last ∧
      Combined v.ackvCons m n.get last ∧ _ :=
    Encodes.mergeFrom encodesA encodes encodesA.startReversePacketWalk start lawful.neutral admitted (Nat.zero_le _) (by omega)
  rw [loop]
  have tail := encodes.tail nonempty
  have tail' := encodes'.tail combined.nonempty
  have tails := combined.tail
  have sameTail : (DCCPAckVector.mergeFrom fresh (sub32 a.seqHead a.seqTail + 2) a.startReversePacketWalk v).1.seqTail = v.seqTail := by
    omega
  refine ⟨⟨fun k kept either => ?_, fun _ => sameTail, fun _ k old => ?_⟩, ?_, same, items', last, encodes'⟩
  · have low : v.seqTail ≤ k := kept.resolve_left empty
    have high : k ≤ last.head := by
      rw [encodes.getState, encodesA.getState] at either
      rcases either with known | new
      · exact (AckMap.get_isSome_iff.mp known).1.trans combined.head
      · obtain ⟨state, found⟩ := Option.isSome_iff_exists.mp new
        exact combined.inside k state found
    rw [encodes'.getState, combined.get k (by omega) high, encodes.getState, encodesA.getState]
    cases new : n.get k with
    | some state => rfl
    | none => exact congrArg some (lawful.same _).symm
  · refine if_pos (Or.inr (Or.inr ?_))
    rw [sameTail]
    exact old
  · exact iff_of_false Bool.false_ne_true (by rintro (h | h) <;> contradiction)

/-- The vectors that the calls can make, `mergeWith` included, for one matrix. -/
inductive Reachable (c : DCCPPacketState → DCCPPacketState → DCCPPacketState) : DCCPAckVector → Prop
  | made (fresh : Fresh) {n : ℕ} (positive : 0 < n) (limit : n ≤ maxAckvSize) : Reachable c { new fresh n with ackvCons := c }
  | used (fresh : Fresh) {v w : DCCPAckVector} {request : Use} (reached : Reachable c v) (admitted : v.UseAdmitted request)
      (written : v.UseWritten request) (used : v.use fresh request = some w) : Reachable c w
  | merged (fresh : Fresh) {v a : DCCPAckVector} (reached : Reachable c v) (reachedA : Reachable c a) (room : MergeRoom fresh v a) :
      Reachable c (mergeWith fresh a v).2.1
  | walked (fresh : Fresh) {v a : DCCPAckVector} (reached : Reachable c v) (reachedA : Reachable c a) (room : MergeRoom fresh v a) :
      Reachable c (mergeWith fresh a v).2.2

theorem Reachable.encodes (lawful : LawfulCons c) (reached : Reachable c v) : ∃ items m, Encodes v items m ∧ v.ackvCons = c := by
  induction reached with
  | @made fresh n positive limit =>
    have holds : Holds (new fresh n) [] := new_holds n positive limit
    exact ⟨[], .empty, ⟨⟨holds.size, holds.laid, holds.positive, holds.limit, holds.head, holds.tail⟩, rfl, rfl,
      fun some => absurd rfl some, by simp [AckMap.empty]⟩, rfl⟩
  | used fresh _ admitted written used ih =>
    obtain ⟨items, m, encodes, same⟩ := ih
    obtain ⟨items', m', encodes', same'⟩ := encodes.use admitted written used
    exact ⟨items', m', encodes', same'.trans same⟩
  | merged fresh _ _ room ih ihA =>
    obtain ⟨items, m, encodes, same⟩ := ih
    obtain ⟨itemsA, n, encodesA, _⟩ := ihA
    obtain ⟨_, _, same', items', last, encodes'⟩ := encodes.mergeWith encodesA (same ▸ lawful) room
    exact ⟨items', last, encodes', same'.trans same⟩
  | @walked fresh v a _ _ _ _ ihA =>
    obtain ⟨itemsA, n, encodesA, sameA⟩ := ihA
    unfold DCCPAckVector.mergeWith
    split_ifs
    · exact ⟨itemsA, n, encodesA, sameA⟩
    · cases a.getAckVector <;> exact ⟨itemsA, n, encodesA, sameA⟩
    · obtain ⟨encodes', same⟩ : Encodes (mergeFrom fresh (sub32 a.seqHead a.seqTail + 2) a.startReversePacketWalk v).2 itemsA n ∧ _ :=
        Encodes.mergeFrom_walked _ (encodesA.walked ..) v
      exact ⟨itemsA, n, encodes', same.trans sameA⟩

/-- `mergeWith` merges every state as it should, but its result says so only if one of the two vectors has no packets. -/
theorem mergeWith_iff (fresh : Fresh) (source : c = cons ∨ c = senderCons) (reached : Reachable c v) (reachedA : Reachable c a)
    (room : MergeRoom fresh v a) :
    MergedStates v a (mergeWith fresh a v).2.1 ∧ (Merges v a (mergeWith fresh a v) ↔ v.size = 0 ∨ a.size = 0) := by
  have lawful := lawfulCons_of_source source
  obtain ⟨items, m, encodes, same⟩ := reached.encodes lawful
  obtain ⟨itemsA, n, encodesA, _⟩ := reachedA.encodes lawful
  obtain ⟨states, result, _⟩ := encodes.mergeWith encodesA (same ▸ lawful) room
  refine ⟨states, fun merges => result.mp (merges.result.mpr states.all), fun either => ⟨states, ?_⟩⟩
  exact iff_of_true (result.mpr either) states.all

/-- A vector with one packet. -/
def single (k : ℕ) : DCCPAckVector := ((new (fun _ _ => 0) 4).call (fun _ _ => 0) (.addPacket k .recv)).1

theorem single_reachable (small : k < 2 ^ 31) : Reachable cons (single k) := by
  have made : Reachable cons { new (fun _ _ => 0) 4 with ackvCons := cons } := .made _ (by decide) (by decide)
  have admitted : UseAdmitted (new (fun _ _ => 0) 4) (.ask (.addPacket k .recv)) := ⟨small, (by decide : (1 : ℕ) ≤ maxAckvSize)⟩
  exact .used _ made admitted (fun unwritten => absurd unwritten.2.1 (by decide)) rfl

theorem mergeWith_iff_sample : MergedStates (single 1) (single 2) (mergeWith (fun _ _ => 0) (single 2) (single 1)).2.1 ∧
    (Merges (single 1) (single 2) (mergeWith (fun _ _ => 0) (single 2) (single 1)) ↔ (single 1).size = 0 ∨ (single 2).size = 0) :=
  mergeWith_iff _ (Or.inl rfl) (single_reachable (by decide)) (single_reachable (by decide)) (by decide +kernel)

/-- The packet is merged, and the result is false. -/
theorem merged_unreported : Reachable cons (single 1) ∧ Reachable cons (single 2) ∧ MergeRoom (fun _ _ => 0) (single 1) (single 2) ∧
    (mergeWith (fun _ _ => 0) (single 2) (single 1)).2.1.getState 2 = some .recv ∧
    ¬Merges (single 1) (single 2) (mergeWith (fun _ _ => 0) (single 2) (single 1)) := by
  have reached : Reachable cons (single 1) := single_reachable (by decide)
  have reachedA : Reachable cons (single 2) := single_reachable (by decide)
  have room : MergeRoom (fun _ _ => 0) (single 1) (single 2) := by decide +kernel
  refine ⟨reached, reachedA, room, by decide +kernel, fun merges => ?_⟩
  have lawful : LawfulCons cons := lawfulCons_of_source (Or.inl rfl)
  obtain ⟨items, m, encodes, same⟩ := reached.encodes lawful
  obtain ⟨itemsA, n, encodesA, _⟩ := reachedA.encodes lawful
  have states := (encodes.mergeWith encodesA (same ▸ lawful) room).1
  exact absurd (merges.result.mpr states.all) (by decide +kernel)

end DCCPAckVector

end Ns2
