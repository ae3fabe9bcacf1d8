import Ns2.Dccp.AckVectorMatrix
import Ns2.Dccp.TcpLikeSender

namespace Ns2

namespace TcpLikeSender

open DCCPAckVector

variable {fresh : Fresh} {p : TcpLikeParams} {s t : TcpLikeSender} {r r' : Reading} {firstStored seqnum fuel ackNum k : ℕ}
  {old reported : DCCPPacketState} {ackv : DCCPAckVector}

theorem visit_spec (p : TcpLikeParams) (s : TcpLikeSender) (seqnum : ℕ) (old reported : DCCPPacketState) (r : Reading) : ∃ look late,
    (visit p s seqnum old reported r).visits = r.visits ++ [look] ∧
    (visit p s seqnum old reported r).counts = (if look.data then r.counts.count s.congestion look late else r.counts) ∧
    look.new = s.storedAckv.ackvCons look.old look.reported :=
  ⟨⟨seqnum, (findPacketInSendHistory seqnum r.elm).head? = some seqnum, old, reported, s.storedAckv.ackvCons old reported⟩, _, rfl, rfl, rfl⟩

/-- What the loop keeps, whatever the vectors are. -/
theorem readFrom_kept {I : Reading → Prop} (visited : ∀ seqnum old reported r, I r → I (visit p s seqnum old reported r))
    (walked : ∀ r received stored empty, stored.ackvCons = r.stored.ackvCons → I r →
      I { r with received, stored, ackvRecvEmpty := empty }) (holds : I r)
    (read : readFrom p s firstStored fuel seqnum old reported r = some r') : I r' := by
  induction fuel generalizing seqnum old reported r with
  | zero => cases read
  | succ fuel ih =>
    rw [readFrom] at read
    have looked := visited seqnum old reported r holds
    have moved : I (advance seqnum (visit p s seqnum old reported r)).2.2 := by
      unfold advance
      generalize visit p s seqnum old reported r = next at looked
      obtain ⟨packet, received⟩ := next.received.nextPacket
      cases packet with
      | none => exact walked next received next.stored true rfl looked
      | some packet => exact walked next received next.stored next.ackvRecvEmpty rfl looked
    generalize advance seqnum (visit p s seqnum old reported r) = next at read moved
    obtain ⟨seqnum', reported', next⟩ := next
    dsimp only at read moved
    split at read
    · cases Option.some.inj read
      exact holds
    split at read
    · cases Option.some.inj read
      exact moved
    · obtain ⟨⟨old', last⟩, recalled, onward⟩ := Option.bind_eq_some_iff.mp read
      refine ih ?_ onward
      unfold recallState at recalled
      split at recalled
      · cases Option.some.inj recalled
        exact moved
      · have same := nextPacket_ackvCons next.stored
        generalize next.stored.nextPacket = walk at recalled same
        obtain ⟨packet, stored⟩ := walk
        cases packet with
        | none => cases recalled
        | some packet =>
          cases Option.some.inj recalled
          exact walked next next.received stored next.ackvRecvEmpty same moved

theorem readVectors_kept {I : Reading → Prop}
    (visited : ∀ seqnum old reported r, I r → I (visit p s seqnum old reported r))
    (walked : ∀ r received stored empty, stored.ackvCons = r.stored.ackvCons → I r →
      I { r with received, stored, ackvRecvEmpty := empty })
    (starts : ∀ received stored elm, stored.ackvCons = s.storedAckv.ackvCons → I ⟨received, stored, elm, 0, 0, false, .zero, []⟩)
    (read : s.readVectors p ackNum ackv = some r) : I r := by
  unfold readVectors at read
  dsimp only at read
  generalize ackv.startPacketWalk.nextPacket = first at read
  obtain ⟨packet, received⟩ := first
  cases packet with
  | none => cases read
  | some packet =>
    dsimp only at read
    split at read
    · exact readFrom_kept visited walked (starts _ s.storedAckv.startPacketWalk _ rfl) read
    have same : s.storedAckv.startPacketWalk.nextPacket.2.ackvCons = s.storedAckv.ackvCons := nextPacket_ackvCons _
    generalize s.storedAckv.startPacketWalk.nextPacket = known at read same
    obtain ⟨oldPacket, stored⟩ := known
    cases oldPacket with
    | none => cases read
    | some oldPacket =>
      dsimp only at read
      split at read
      · cases read
      · exact readFrom_kept visited walked (starts _ _ _ same) read

theorem readVectors_ackvCons (read : s.readVectors p ackNum ackv = some r) :
    r.stored.ackvCons = s.storedAckv.ackvCons :=
  readVectors_kept (I := fun r => r.stored.ackvCons = s.storedAckv.ackvCons) (fun _ _ _ _ same => same)
    (fun _ _ _ _ step same => step.trans same) (fun _ _ _ same => same) read

theorem findPacketInSendHistory_newer {sent : ℕ} {hist : List ℕ} (newer : k < sent) :
    findPacketInSendHistory k (sent :: hist) = findPacketInSendHistory k hist :=
  List.dropWhile_cons_of_pos (p := fun sent => decide (k < sent)) (decide_eq_true newer)

theorem findPacketInSendHistory_here {sent : ℕ} {hist : List ℕ} (reached : ¬k < sent) :
    findPacketInSendHistory k (sent :: hist) = sent :: hist :=
  List.dropWhile_cons_of_neg (p := fun sent => decide (k < sent)) (by simpa using reached)

theorem findPacketInSendHistory_twice {j : ℕ} (less : j ≤ k) (hist : List ℕ) :
    findPacketInSendHistory j (findPacketInSendHistory k hist) = findPacketInSendHistory j hist := by
  induction hist with
  | nil => rfl
  | cons sent hist ih =>
    by_cases newer : k < sent
    · rw [findPacketInSendHistory_newer newer, findPacketInSendHistory_newer (less.trans_lt newer), ih]
    · rw [findPacketInSendHistory_here newer]

/-- In a history with falling numbers every packet is found. -/
theorem findPacketInSendHistory_head {hist : List ℕ} (sorted : hist.Pairwise (· > ·)) (sent : k ∈ hist) :
    (findPacketInSendHistory k hist).head? = some k := by
  induction sorted with
  | nil => cases sent
  | @cons first hist older _ ih =>
    rcases List.mem_cons.mp sent with rfl | later
    · rw [findPacketInSendHistory_here (lt_irrefl k)]
      rfl
    · rw [findPacketInSendHistory_newer (older k later)]
      exact ih later

variable {items itemsA : List (BitVec 8)} {m n : AckMap}

/-- The loop is to look at packet `k` of two vectors that stand for `m` and `n`. -/
structure ReadAt (s : TcpLikeSender) (ackv : DCCPAckVector) (items itemsA : List (BitVec 8)) (m n : AckMap) (k : ℕ)
    (old reported : DCCPPacketState) (r : Reading) : Prop where
  high : k ≤ n.head
  received : WalkAt ackv itemsA n (n.head + 1 - k) r.received
  stored : WalkAt s.storedAckv items m (m.head + 1 - k) r.stored
  known : old = (m.get k).getD .notRecv
  report : reported = (n.get k).getD old
  empty : r.ackvRecvEmpty = true → n.get k = none
  elm : ∀ j ≤ k, findPacketInSendHistory j r.elm = findPacketInSendHistory j s.sendHist

/-- The packet is looked at, with what both vectors say of it. -/
def LookedAt (s : TcpLikeSender) (m n : AckMap) (k : ℕ) (visits : List Visit) : Prop := ∃ look ∈ visits, look.seqnum = k ∧
  look.data = decide ((findPacketInSendHistory k s.sendHist).head? = some k) ∧ look.old = (m.get k).getD .notRecv ∧
  look.reported = (n.get k).getD look.old

theorem ReadAt.looked (here : ReadAt s ackv items itemsA m n k old reported r) : LookedAt s m n k (visit p s k old reported r).visits := by
  refine ⟨⟨k, (findPacketInSendHistory k r.elm).head? = some k, old, reported, s.storedAckv.ackvCons old reported⟩,
    List.mem_append_right _ (List.mem_singleton_self _), rfl, ?_, here.known, here.report⟩
  rw [here.elm k le_rfl]

theorem get_of_descending {i : ℕ} (place : m.head - i = k) (within : i ≤ m.head) :
    m.descending[i]? = (m.get k).map fun state => (k, state) := by
  rw [AckMap.descending_getElem?, place, AckMap.get, if_pos (by omega), show m.head - k = i by omega]

theorem recall_states (encodes : Encodes s.storedAckv items m) (walk : WalkAt s.storedAckv items m (m.head - k) r.stored)
    {last : DCCPPacketState × Reading} (recalled : recallState m.head k r = some last) :
    ∃ stored, last = ((m.get k).getD .notRecv, { r with stored }) ∧ WalkAt s.storedAckv items m (m.head + 1 - k) stored := by
  unfold recallState at recalled
  by_cases above : m.head < k
  · rw [if_pos above] at recalled
    cases Option.some.inj recalled
    refine ⟨r.stored, ?_, ?_⟩
    · rw [AckMap.get_above above]
      rfl
    · rwa [show m.head + 1 - k = m.head - k by omega]
  rw [if_neg above] at recalled
  obtain ⟨packet, onward⟩ : r.stored.nextPacket.1 = _ ∧ WalkAt s.storedAckv items m _ r.stored.nextPacket.2 := walk.next encodes
  rw [get_of_descending (k := k) (by omega) (Nat.sub_le _ _)] at packet
  rw [show m.head + 1 - k = m.head - k + 1 by omega]
  generalize r.stored.nextPacket = walked at recalled packet onward
  obtain ⟨found, stored⟩ := walked
  dsimp only at packet
  subst packet
  cases state : m.get k with
  | none =>
    rw [state] at recalled
    cases recalled
  | some state' =>
    rw [state] at recalled
    cases Option.some.inj recalled
    exact ⟨stored, rfl, onward⟩

theorem advance_states (encodesA : Encodes ackv itemsA n) (walk : WalkAt ackv itemsA n (n.head - k) r.received) (high : k < n.head) :
    ∃ received, WalkAt ackv itemsA n (n.head + 1 - k) received ∧ advance (k + 1) r =
      (k, (n.get k).getD .notRecv, { r with received, ackvRecvEmpty := r.ackvRecvEmpty || (n.get k).isNone }) := by
  have bound := encodesA.bound
  obtain ⟨packet, onward⟩ : r.received.nextPacket.1 = _ ∧ WalkAt ackv itemsA n _ r.received.nextPacket.2 := walk.next encodesA
  rw [get_of_descending (k := k) (by omega) (Nat.sub_le _ _)] at packet
  rw [show n.head - k + 1 = n.head + 1 - k by omega] at onward
  refine ⟨r.received.nextPacket.2, onward, ?_⟩
  unfold advance
  generalize r.received.nextPacket = walked at packet
  obtain ⟨found, received⟩ := walked
  dsimp only at packet
  subst packet
  cases n.get k with
  | none =>
    have number : sub32 (k + 1) 1 = k := by
      rw [sub32_eq (by omega) (by omega)]
      rfl
    simp only [Option.map_none, Option.isNone_none, Bool.or_true, Option.getD_none, number]
  | some state =>
    rw [Option.isNone_some, Bool.or_false]
    rfl

/-- One round of the loop, above the last packet that it is to look at. -/
theorem ReadAt.next (encodes : Encodes s.storedAckv items m) (encodesA : Encodes ackv itemsA n)
    (here : ReadAt s ackv items itemsA m n (k + 1) old reported r) : ∃ r' state,
    advance (k + 1) (visit p s (k + 1) old reported r) = (k, state, r') ∧ r'.visits = (visit p s (k + 1) old reported r).visits ∧
    ∀ last, recallState m.head k r' = some last → last.2.visits = r'.visits ∧
      ReadAt s ackv items itemsA m n k last.1 (if r'.ackvRecvEmpty then last.1 else state) last.2 := by
  have high := here.high
  have walk : WalkAt ackv itemsA n (n.head - k) (visit p s (k + 1) old reported r).received := by
    have received := here.received
    rwa [Nat.add_sub_add_right] at received
  have start : WalkAt s.storedAckv items m (m.head - k) (visit p s (k + 1) old reported r).stored := by
    have stored := here.stored
    rwa [Nat.add_sub_add_right] at stored
  obtain ⟨received, onward, moved⟩ := advance_states encodesA walk high
  refine ⟨_, _, moved, rfl, fun last recalled => ?_⟩
  obtain ⟨stored, rfl, left⟩ := recall_states (r := { visit p s (k + 1) old reported r with
    received, ackvRecvEmpty := (visit p s (k + 1) old reported r).ackvRecvEmpty || (n.get k).isNone }) encodes start recalled
  have ended : r.ackvRecvEmpty = true → n.get k = none := by
    intro empty
    -- no packet is below the end of the vector
    have unknown := here.empty empty
    rw [← Option.not_isSome_iff_eq_none, AckMap.get_isSome_iff] at unknown ⊢
    omega
  refine ⟨rfl, by omega, onward, left, rfl, ?_, fun empty => ?_, fun j less => ?_⟩
  · cases said : n.get k with
    | none => rw [Option.isNone_none, Bool.or_true, if_pos rfl, Option.getD_none]
    | some state =>
      have going : r.ackvRecvEmpty = false := by
        by_contra empty
        rw [ended (Bool.not_eq_false _ ▸ empty)] at said
        cases said
      rw [Option.isNone_some, Bool.or_false]
      show (if r.ackvRecvEmpty = true then _ else _) = _
      rw [going, if_neg Bool.false_ne_true, Option.getD_some, Option.getD_some]
  · rcases Bool.or_eq_true_iff.mp empty with before | now
    · exact ended before
    · exact Option.isNone_iff_eq_none.mp now
  · show findPacketInSendHistory j (findPacketInSendHistory (k + 1) r.elm) = _
    rw [findPacketInSendHistory_twice (by omega), here.elm j (by omega)]

theorem LookedAt.mono {visits more : List Visit} (looked : LookedAt s m n k visits) (all : visits ⊆ more) : LookedAt s m n k more := by
  obtain ⟨look, mem, rest⟩ := looked
  exact ⟨look, all mem, rest⟩

theorem readFrom_visits (read : readFrom p s firstStored fuel seqnum old reported r = some r') : r.visits ⊆ r'.visits :=
  readFrom_kept (I := fun next => r.visits ⊆ next.visits) (fun _ _ _ _ all => List.subset_append_of_subset_left _ all)
    (fun _ _ _ _ _ all => all) (List.Subset.refl _) read

/-- The loop looks at every packet above `seq_all_done_`. -/
theorem readFrom_looks (encodes : Encodes s.storedAckv items m) (encodesA : Encodes ackv itemsA n)
    (here : ReadAt s ackv items itemsA m n seqnum old reported r)
    (read : readFrom p s m.head fuel seqnum old reported r = some r') (low : s.seqAllDone < k) (high : k ≤ seqnum) :
    LookedAt s m n k r'.visits := by
  induction fuel generalizing seqnum old reported r with
  | zero => cases read
  | succ fuel ih =>
    obtain ⟨seqnum, rfl⟩ : ∃ j, seqnum = j + 1 := ⟨seqnum - 1, by omega⟩
    have looked := here.looked (p := p)
    obtain ⟨next, state, moved, visits, onward⟩ := here.next (p := p) encodes encodesA
    rw [readFrom, if_neg (by omega), moved] at read
    dsimp only at read
    by_cases met : seqnum = s.seqAllDone
    · rw [if_pos met] at read
      cases Option.some.inj read
      obtain rfl : k = seqnum + 1 := by omega
      rwa [visits]
    rw [if_neg met] at read
    obtain ⟨last, recalled, rest⟩ := Option.bind_eq_some_iff.mp read
    obtain ⟨same, there⟩ := onward last recalled
    rcases Nat.lt_or_eq_of_le high with lower | rfl
    · exact ih there rest (Nat.lt_succ_iff.mp lower)
    · refine looked.mono ?_
      rw [← visits, ← same]
      exact readFrom_visits rest

/-- A vector that is read shows every packet above `seq_all_done_` with its stored and its reported state. -/
theorem readVectors_looks (encodes : Encodes s.storedAckv items m) (encodesA : Encodes ackv itemsA n) (latest : n.head ≤ ackNum)
    (read : s.readVectors p ackNum ackv = some r) (low : s.seqAllDone < k) (high : k ≤ n.head) : LookedAt s m n k r.visits := by
  have elm (j : ℕ) (less : j ≤ n.head) :
      findPacketInSendHistory j (findPacketInSendHistory ackNum s.sendHist) = findPacketInSendHistory j s.sendHist :=
    findPacketInSendHistory_twice (less.trans latest) _
  obtain ⟨packet, walk⟩ : ackv.startPacketWalk.nextPacket.1 = _ ∧ WalkAt ackv itemsA n 1 ackv.startPacketWalk.nextPacket.2 :=
    encodesA.startPacketWalk.next encodesA
  obtain ⟨known, stored⟩ : s.storedAckv.startPacketWalk.nextPacket.1 = _ ∧ WalkAt s.storedAckv items m 1 _ :=
    encodes.startPacketWalk.next encodes
  rw [get_of_descending rfl (Nat.zero_le _)] at packet known
  unfold readVectors at read
  dsimp only at read
  generalize ackv.startPacketWalk.nextPacket = first at read packet walk
  obtain ⟨found, received⟩ := first
  dsimp only at packet
  subst packet
  cases state : n.get n.head with
  | none =>
    rw [Nat.sub_zero, state] at read
    cases read
  | some reported =>
    rw [Nat.sub_zero, state] at read
    dsimp only [Option.map] at read
    rw [encodes.head] at read
    by_cases newer : m.head < n.head
    · rw [if_pos newer] at read
      refine readFrom_looks encodes encodesA ⟨le_rfl, ?_, ?_, ?_, ?_, fun empty => absurd empty Bool.false_ne_true, elm⟩ read low high
      · rwa [Nat.add_sub_cancel_left]
      · rw [Nat.sub_eq_zero_of_le newer]
        exact encodes.startPacketWalk
      · rw [AckMap.get_above newer]
        rfl
      · rw [state]
        rfl
    rw [if_neg newer] at read
    generalize s.storedAckv.startPacketWalk.nextPacket = oldest at read known stored
    obtain ⟨found, left⟩ := oldest
    dsimp only at known
    subst known
    cases state' : m.get m.head with
    | none =>
      rw [Nat.sub_zero, state'] at read
      cases read
    | some old =>
      rw [Nat.sub_zero, state'] at read
      dsimp only [Option.map] at read
      split at read
      · cases read
      rename_i same
      have same : m.head = n.head := not_not.mp same
      refine readFrom_looks encodes encodesA ⟨le_rfl, ?_, ?_, ?_, ?_, fun empty => absurd empty Bool.false_ne_true, elm⟩ read low high
      · rwa [Nat.add_sub_cancel_left]
      · rwa [same, Nat.add_sub_cancel_left]
      · rw [← same, state']
        rfl
      · rw [state]
        rfl

end TcpLikeSender

end Ns2
