import Ns2.Dccp.TcpLikeReading

namespace Ns2

namespace Congestion

/-- What a routine leaves alone that report how much may be sent. -/
structure SameWindow (s t : Congestion) : Prop where
  cwnd : t.cwnd = s.cwnd
  seqWinStart : t.seqWinStart = s.seqWinStart

variable {s t u : Congestion} {view : AgentView} {counts : DataCounts} {lostAck : Bool} {ackNum : ℕ}

theorem SameWindow.trans (first : SameWindow s t) (second : SameWindow t u) : SameWindow s u :=
  ⟨second.cwnd.trans first.cwnd, second.seqWinStart.trans first.seqWinStart⟩

theorem checkAckRatio_sameWindow (s : Congestion) : SameWindow s s.checkAckRatio.2 := by
  unfold checkAckRatio
  dsimp only
  split_ifs <;> exact ⟨rfl, rfl⟩

theorem askAck_sameWindow (view : AgentView) (s : Congestion) : SameWindow s (askAck view s) := by
  unfold askAck
  split_ifs <;> exact ⟨rfl, rfl⟩

theorem changeRemoteAckRatio_sameWindow (view : AgentView) (s : Congestion) : SameWindow s (changeRemoteAckRatio view s) := by
  unfold changeRemoteAckRatio
  split_ifs <;> exact ⟨rfl, rfl⟩

theorem lostOrMarkedAck_sameWindow (view : AgentView) (s : Congestion) : SameWindow s (lostOrMarkedAck view s) := by
  unfold lostOrMarkedAck
  have raised : SameWindow s { s with
      ackWinStart := view.seqNum, numWinAcked := 0, numAckInWin := 0, skipAckLoss := true, recvAckRatio := toU16 (s.recvAckRatio * 2) } :=
    ⟨rfl, rfl⟩
  exact raised.trans (checkAckRatio_sameWindow _)

theorem updateAckRatio_sameWindow (numAck : ℤ) (s : Congestion) : SameWindow s (updateAckRatio numAck s).2 := by
  unfold updateAckRatio
  dsimp only
  split_ifs
  · exact ⟨rfl, rfl⟩
  · have checked := checkAckRatio_sameWindow { s with
      numWinAcked := s.numWinAcked + 1, numAckInWin := s.numAckInWin + numAck - s.cwnd, recvAckRatio := toU16 (s.recvAckRatio - 1) }
    exact ⟨checked.cwnd, checked.seqWinStart⟩
  · exact ⟨rfl, rfl⟩
  · exact ⟨rfl, rfl⟩

/-- A marked packet of the window reduces it. -/
theorem handleLosses_marked (marked : 0 < counts.marked true) (view : AgentView) (s : Congestion) :
    SameWindow (lostOrMarkedData view s) (handleLosses view counts s).2 := by
  unfold handleLosses
  rw [if_pos (.inr marked)]
  have checked := checkAckRatio_sameWindow { lostOrMarkedData view s with numAckInWin := 0 }
  have halved : SameWindow (lostOrMarkedData view s) { lostOrMarkedData view s with numAckInWin := 0 } := ⟨rfl, rfl⟩
  dsimp only
  split_ifs
  · have restarted : SameWindow (checkAckRatio { lostOrMarkedData view s with numAckInWin := 0 }).2
        { (checkAckRatio { lostOrMarkedData view s with numAckInWin := 0 }).2 with numWinAcked := 0, ackWinStart := view.seqNum } := ⟨rfl, rfl⟩
    exact ((halved.trans checked).trans restarted).trans (askAck_sameWindow _ _)
  · exact (halved.trans checked).trans (askAck_sameWindow _ _)

/-- An acknowledgement that is not too old and reports a marked packet of the window: the window that it leaves is the reduced one. -/
theorem recvAck_marked {done : List ℤ × Congestion} (marked : 0 < counts.marked true) (recent : s.highAckRecv ≤ ackNum)
    (taken : recvAck view ackNum lostAck (some counts) s = some done) :
    ∃ grown, updateCwnd view (numIncCwnd counts) { s with skipAckLoss := ackNum < s.ackWinStart, highAckRecv := ackNum } = some grown ∧
      SameWindow (lostOrMarkedData view grown) done.2 := by
  unfold recvAck at taken
  dsimp only at taken
  rw [if_pos recent, acknowledge] at taken
  obtain ⟨grown, updated, rfl⟩ := Option.map_eq_some_iff.mp taken
  refine ⟨grown, updated, (handleLosses_marked marked view grown).trans ?_⟩
  dsimp only
  split_ifs
  · exact lostOrMarkedAck_sameWindow _ _
  · exact updateAckRatio_sameWindow _ _

end Congestion

/-- The packet is reported as marked for the first time. -/
def Visit.Marks (visit : Visit) : Prop := (visit.old = .notRecv ∨ visit.old = .recv) ∧ visit.reported = .ecn

instance (visit : Visit) : Decidable visit.Marks := inferInstanceAs (Decidable (_ ∧ _))

/-- The data packets that are reported as marked for the first time, those of the window or the older ones. -/
def Reading.marks (winStart : ℕ) (inWindow : Bool) (r : Reading) : List Visit :=
  r.visits.filter fun visit => visit.data ∧ decide (winStart ≤ visit.seqnum) = inWindow ∧ visit.Marks

/-- What the matrix makes of a packet that was looked at. -/
theorem PacketCounts.count_marked (s : Congestion) (visit : Visit) (late : Bool) (counts : PacketCounts) :
    (counts.count s visit late).marked =
      if (visit.old = .notRecv ∨ visit.old = .recv) ∧ visit.new = .ecn then bump counts.marked (s.seqWinStart ≤ visit.seqnum)
      else counts.marked := by
  obtain ⟨seqnum, data, old, reported, new⟩ := visit
  cases old <;> cases new <;> cases late <;> rfl

/-- The matrix of the sender takes every first mark. -/
theorem Visit.marks_iff {visit : Visit} (combined : visit.new = DCCPAckVector.senderCons visit.old visit.reported) :
    (visit.old = .notRecv ∨ visit.old = .recv) ∧ visit.new = .ecn ↔ visit.Marks := by
  rw [combined, Visit.Marks]
  cases visit.old <;> cases visit.reported <;> decide

theorem bump_apply (f : Bool → ℕ) (i b : Bool) : bump f i b = f b + if i = b then 1 else 0 := by
  unfold bump
  by_cases same : i = b
  · subst same
    rw [Function.update_self, if_pos rfl]
  · rw [Function.update_of_ne (Ne.symm same), if_neg same, Nat.add_zero]

namespace TcpLikeSender

open DCCPAckVector

variable {fresh : Fresh} {p : TcpLikeParams} {s t : TcpLikeSender} {r : Reading} {ackNum k : ℕ} {ackv : DCCPAckVector}

/-- Under the matrix of the sender every first mark is counted once, in its window. -/
theorem readVectors_marks (matrix : s.storedAckv.ackvCons = senderCons)
    (read : s.readVectors p ackNum ackv = some r) (b : Bool) : r.counts.marked b = (r.marks s.congestion.seqWinStart b).length := by
  refine readVectors_kept (I := fun r => r.counts.marked b = (r.marks s.congestion.seqWinStart b).length) ?_ (fun _ _ _ _ _ same => same)
    (fun _ _ _ _ => rfl) read
  intro seqnum old reported r same
  obtain ⟨look, late, listed, counts, combined⟩ := visit_spec p s seqnum old reported r
  have marking := Visit.marks_iff (combined.trans (congrFun (congrFun matrix _) _))
  have counted : (visit p s seqnum old reported r).counts.marked b = r.counts.marked b +
      if look.data ∧ decide (s.congestion.seqWinStart ≤ look.seqnum) = b ∧ look.Marks then 1 else 0 := by
    rw [counts]
    by_cases data : look.data = true
    · rw [if_pos data, PacketCounts.count_marked, if_congr marking rfl rfl]
      by_cases marks : look.Marks
      · rw [if_pos marks, bump_apply]
        simp only [data, marks, true_and, and_true]
      · simp only [marks, and_false, if_false, Nat.add_zero]
    · rw [if_neg data, if_neg fun all => data all.1, Nat.add_zero]
  rw [counted, same, Reading.marks, Reading.marks, listed, List.filter_append, List.length_append, List.filter_singleton]
  split_ifs with mark
  · simp [mark]
  · simp [mark]

theorem initStored_ackvCons (ackv : DCCPAckVector) (s : TcpLikeSender) :
    (s.initStored fresh ackv).storedAckv.ackvCons = s.storedAckv.ackvCons := by
  unfold initStored
  split
  · exact (addPacket_ackvCons fresh ..).trans (addPacket_ackvCons fresh ..)
  · rfl

theorem trimSendHistory_kept (trimTo : ℕ) (s : TcpLikeSender) : (s.trimSendHistory trimTo).storedAckv = s.storedAckv ∧
    (s.trimSendHistory trimTo).congestion = s.congestion ∧ (s.trimSendHistory trimTo).seqNum = s.seqNum := by
  unfold trimSendHistory
  split <;> exact ⟨rfl, rfl, rfl⟩

theorem settle_ackvCons (r : Reading) (s : TcpLikeSender) : (s.settle fresh r).storedAckv.ackvCons = r.stored.ackvCons := by
  unfold settle
  dsimp only
  rw [(trimSendHistory_kept _ _).1]
  exact removePackets_ackvCons.trans (mergeWith_ackvCons fresh ..)

theorem congest_storedAckv {i : Congestion.Input} (taken : s.congest p i = some t) : t.storedAckv = s.storedAckv := by
  obtain ⟨done, _, rfl⟩ := Option.map_eq_some_iff.mp taken
  rfl

theorem limitAckVector_storedAckv (view : AgentView) (ackNum size : ℕ) (s : TcpLikeSender) :
    (s.limitAckVector p view ackNum size).storedAckv = s.storedAckv := by
  unfold limitAckVector
  split <;> rfl

theorem initStored_kept (ackv : DCCPAckVector) (s : TcpLikeSender) :
    (s.initStored fresh ackv).congestion = s.congestion ∧ (s.initStored fresh ackv).seqNum = s.seqNum := by
  unfold initStored
  split <;> exact ⟨rfl, rfl⟩

theorem settle_kept (r : Reading) (s : TcpLikeSender) : (s.settle fresh r).congestion = s.congestion ∧ (s.settle fresh r).seqNum = s.seqNum := by
  unfold settle
  dsimp only
  rw [(trimSendHistory_kept _ _).2.1, (trimSendHistory_kept _ _).2.2]
  exact ⟨rfl, rfl⟩

/-- What is done with an ack vector, in the order in which it is done. -/
theorem recvVector_cases {peer : PeerView} {lostAck : Bool}
    (taken : s.recvVector fresh p peer ackNum lostAck ackv = some (t, r)) :
    ∃ u, (s.initStored fresh ackv).readVectors p ackNum ackv = some r ∧ 0 ≤ ((s.initStored fresh ackv).settle fresh r).pipe ∧
      ((s.initStored fresh ackv).settle fresh r).congest p
        (.ack (((s.initStored fresh ackv).settle fresh r).view peer) ackNum lostAck (some r.counts.toDataCounts)) = some u ∧
      t = u.limitAckVector p (((s.initStored fresh ackv).settle fresh r).view peer) ackNum ackv.size := by
  unfold recvVector at taken
  dsimp only at taken
  split at taken
  · cases taken
  obtain ⟨r', read, onward⟩ := Option.bind_eq_some_iff.mp taken
  split at onward
  · cases onward
  rename_i positive
  obtain ⟨u, done, same⟩ := Option.map_eq_some_iff.mp onward
  cases same
  exact ⟨u, read, not_lt.mp positive, done, rfl⟩

/-- What a call does: only an ack vector that is not too old is read. -/
inductive Stepped (fresh : Fresh) (p : TcpLikeParams) (s : TcpLikeSender) : Call → TcpLikeSender → Option Reading → Prop
  | sent (data : Bool) : Stepped fresh p s (.sent data) (s.packetSent data) none
  | congested {call : Call} {i : Congestion.Input} {u : TcpLikeSender} (other : call ≠ .reset) (done : s.congest p i = some u) (pipe : ℤ) :
      Stepped fresh p s call { u with pipe } none
  | read {peer : PeerView} {ackNum : ℕ} {lostAck : Bool} {ackv : DCCPAckVector} {t : TcpLikeSender} {r : Reading}
      (recent : s.congestion.highAckRecv ≤ ackNum) (done : s.recvVector fresh p peer ackNum lostAck ackv = some (t, r)) :
      Stepped fresh p s (.ack peer ackNum lostAck (some ackv)) t (some r)
  | reset : Stepped fresh p s .reset (reset fresh p) none

/-- A call that only reaches the congestion variables and the pipe. -/
theorem stepped_congest {call : Call} {i : Congestion.Input} {out : Option Reading} (pipe : TcpLikeSender → ℤ)
    (other : call ≠ .reset) (taken : ((s.congest p i).map fun u => ({ u with pipe := pipe u }, none)) = some (t, out)) : Stepped fresh p s call t out := by
  obtain ⟨u, done, same⟩ := Option.map_eq_some_iff.mp taken
  cases same
  exact .congested other done (pipe u)

theorem step_cases {call : Call} {out : Option Reading} (taken : s.step fresh p call = some (t, out)) : Stepped fresh p s call t out := by
  cases call with
  | sent data =>
    cases Option.some.inj taken
    exact .sent data
  | data peer lostAck =>
    rw [step] at taken
    exact stepped_congest TcpLikeSender.pipe Call.noConfusion taken
  | ack peer ackNum lostAck ackv =>
    rw [step, recvAck] at taken
    cases ackv with
    | none => exact stepped_congest TcpLikeSender.pipe Call.noConfusion taken
    | some ackv =>
      rw [Option.filter_some] at taken
      by_cases size : 0 < ackv.size
      · rw [if_pos (decide_eq_true size)] at taken
        dsimp only at taken
        split at taken
        · rename_i recent
          obtain ⟨⟨u, r⟩, done, same⟩ := Option.map_eq_some_iff.mp taken
          cases same
          exact .read recent done
        · exact stepped_congest TcpLikeSender.pipe Call.noConfusion taken
      · rw [if_neg (by simp [size])] at taken
        exact stepped_congest TcpLikeSender.pipe Call.noConfusion taken
  | timeout peer =>
    rw [step] at taken
    exact stepped_congest (fun _ => 0) Call.noConfusion taken
  | feature ratio =>
    rw [step] at taken
    exact stepped_congest TcpLikeSender.pipe Call.noConfusion taken
  | reset =>
    cases Option.some.inj taken
    exact .reset

/-- A call that is not `reset` leaves the matrix. -/
theorem Stepped.ackvCons {call : Call} {out : Option Reading} (stepped : Stepped fresh p s call t out) (other : call ≠ .reset) :
    t.storedAckv.ackvCons = s.storedAckv.ackvCons := by
  cases stepped with
  | sent data =>
    unfold packetSent
    dsimp only
    split <;> rfl
  | congested _ done pipe =>
    have same := congest_storedAckv done
    exact congrArg DCCPAckVector.ackvCons same
  | read recent done =>
    obtain ⟨u, read, _, congested, rfl⟩ := recvVector_cases done
    rw [limitAckVector_storedAckv, congest_storedAckv congested, settle_ackvCons, readVectors_ackvCons read, initStored_ackvCons]
  | reset => exact absurd rfl other

/-- A data packet above `seq_all_done_` that was reported as received, and is now reported as marked. -/
structure MarkedLater (s : TcpLikeSender) (ackv : DCCPAckVector) (k : ℕ) : Prop where
  sent : k ∈ s.sendHist
  pending : s.seqAllDone < k
  stored : s.storedAckv.getState k = some .recv
  reported : ackv.getState k = some .ecn

/-- Two vectors that stand for the states of packets, and a history that has not wrapped. -/
structure Orderly (s : TcpLikeSender) (ackNum : ℕ) (ackv : DCCPAckVector) : Prop where
  stored : ∃ items m, Encodes s.storedAckv items m
  received : ∃ items m, Encodes ackv items m
  latest : ackv.seqHead ≤ ackNum
  sorted : s.sendHist.Pairwise (· > ·)

theorem MarkedLater.mem_marks (later : MarkedLater s ackv k) (orderly : Orderly s ackNum ackv)
    (read : (s.initStored fresh ackv).readVectors p ackNum ackv = some r) (winStart : ℕ) :
    ∃ look ∈ r.marks winStart (winStart ≤ k), look.seqnum = k ∧ look.old = .recv := by
  obtain ⟨items, m, encodes⟩ := orderly.stored
  obtain ⟨itemsA, n, encodesA⟩ := orderly.received
  have stored : m.get k = some .recv := (encodes.getState k).symm.trans later.stored
  have reported : n.get k = some .ecn := (encodesA.getState k).symm.trans later.reported
  have kept : s.initStored fresh ackv = s := by
    refine if_neg fun empty => ?_
    have unknown : s.storedAckv.getState k = none := if_pos (Or.inl empty)
    rw [later.stored] at unknown
    cases unknown
  rw [kept] at read
  have known : (n.get k).isSome := by rw [reported]; rfl
  obtain ⟨look, mem, rfl, data, old, report⟩ := readVectors_looks encodes encodesA (encodesA.head ▸ orderly.latest) read later.pending
    (AckMap.get_isSome_iff.mp known).1
  rw [stored] at old
  rw [reported] at report
  rw [findPacketInSendHistory_head orderly.sorted later.sent] at data
  exact ⟨look, List.mem_filter.mpr ⟨mem, decide_eq_true ⟨data.trans (decide_eq_true rfl), rfl, Or.inr old, report⟩⟩, rfl, old⟩

/-- The matrix is that of the sender, every first mark is counted once, and one in the window reduces what may be sent. -/
structure HonoursMarks (fresh : Fresh) (p : TcpLikeParams) (s : TcpLikeSender) : Prop where
  matrix : s.storedAckv.ackvCons = senderCons
  counted : ∀ peer ackNum lostAck ackv t r, s.step fresh p (.ack peer ackNum lostAck ackv) = some (t, some r) →
    ∀ b, r.counts.marked b = (r.marks s.congestion.seqWinStart b).length
  reduced : ∀ peer ackNum lostAck ackv t r, s.step fresh p (.ack peer ackNum lostAck ackv) = some (t, some r) →
    r.marks s.congestion.seqWinStart true ≠ [] → ∃ grown,
      Congestion.updateCwnd (s.view peer) (Congestion.numIncCwnd r.counts.toDataCounts)
        { s.congestion with skipAckLoss := ackNum < s.congestion.ackWinStart, highAckRecv := ackNum } = some grown ∧
      t.congestion.cwnd = (if 2 ≤ grown.cwnd then grown.cwnd.tdiv 2 else grown.cwnd) ∧ t.congestion.seqWinStart = s.seqNum
  later : ∀ peer ackNum lostAck ackv t r k, s.step fresh p (.ack peer ackNum lostAck (some ackv)) = some (t, some r) →
    Orderly s ackNum ackv → MarkedLater s ackv k →
    ∃ look ∈ r.marks s.congestion.seqWinStart (s.congestion.seqWinStart ≤ k), look.seqnum = k ∧ look.old = .recv

theorem recvVector_marks {peer : PeerView} {lostAck : Bool}
    (matrix : s.storedAckv.ackvCons = senderCons) (taken : s.recvVector fresh p peer ackNum lostAck ackv = some (t, r)) (b : Bool) :
    r.counts.marked b = (r.marks s.congestion.seqWinStart b).length := by
  obtain ⟨u, read, _⟩ := recvVector_cases taken
  have counted := readVectors_marks ((initStored_ackvCons ackv s).trans matrix) read b
  rwa [(initStored_kept ackv s).1] at counted

theorem recvVector_reduces {peer : PeerView} {lostAck : Bool} (recent : s.congestion.highAckRecv ≤ ackNum)
    (taken : s.recvVector fresh p peer ackNum lostAck ackv = some (t, r)) (marked : 0 < r.counts.marked true) : ∃ grown,
      Congestion.updateCwnd (s.view peer) (Congestion.numIncCwnd r.counts.toDataCounts)
        { s.congestion with skipAckLoss := ackNum < s.congestion.ackWinStart, highAckRecv := ackNum } = some grown ∧
      t.congestion.cwnd = (if 2 ≤ grown.cwnd then grown.cwnd.tdiv 2 else grown.cwnd) ∧ t.congestion.seqWinStart = s.seqNum := by
  obtain ⟨u, read, _, congested, rfl⟩ := recvVector_cases taken
  have sameView : ((s.initStored fresh ackv).settle fresh r).view peer = s.view peer := by
    rw [view, view, (settle_kept r _).2, (initStored_kept ackv s).2]
  obtain ⟨⟨next, divisors⟩, stepped, rfl⟩ := Option.map_eq_some_iff.mp congested
  obtain ⟨done, received, same⟩ := Option.map_eq_some_iff.mp stepped
  cases same
  rw [(settle_kept r _).1, (initStored_kept ackv s).1, sameView] at received
  obtain ⟨grown, updated, window⟩ := Congestion.recvAck_marked marked recent received
  have left := window.trans (Congestion.changeRemoteAckRatio_sameWindow (s.view peer) done.2)
  have asked : Congestion.SameWindow (Congestion.changeRemoteAckRatio (s.view peer) done.2) (limitAckVector p
      (((s.initStored fresh ackv).settle fresh r).view peer) ackNum ackv.size
        { (s.initStored fresh ackv).settle fresh r with congestion := Congestion.changeRemoteAckRatio (s.view peer) done.2 }).congestion := by
    unfold limitAckVector
    split
    · exact Congestion.askAck_sameWindow _ _
    · exact ⟨rfl, rfl⟩
  rw [sameView] at asked ⊢
  exact ⟨grown, updated, (left.trans asked).cwnd, (left.trans asked).seqWinStart⟩

theorem honoursMarks_of_matrix (matrix : s.storedAckv.ackvCons = senderCons) : HonoursMarks fresh p s where
  matrix
  counted peer ackNum lostAck ackv t r taken b := by
    cases step_cases taken with
    | read recent done => exact recvVector_marks matrix done b
  reduced peer ackNum lostAck ackv t r taken some := by
    cases step_cases taken with
    | read recent done =>
      refine recvVector_reduces recent done ?_
      rw [recvVector_marks matrix done]
      exact List.length_pos_of_ne_nil some
  later peer ackNum lostAck ackv t r k taken orderly later := by
    cases step_cases taken with
    | read recent done =>
      obtain ⟨_, read, _⟩ := recvVector_cases done
      exact later.mem_marks orderly read _

/-- A vector that reports some packets, the oldest one first. -/
def reports (packets : List (ℕ × DCCPPacketState)) : DCCPAckVector :=
  packets.foldl (fun v packet => (addPacket (fun _ _ => 0) packet.1 packet.2 nesting v).2) (.new (fun _ _ => 0) 4)

/-- Three data packets are sent. The first is reported as received, and then as marked. -/
def firstMarked : List Call :=
  [.sent true, .sent true, .sent true, .ack ⟨0, false, false⟩ 1 false (some (reports [(1, .recv)])),
    .ack ⟨0, false, false⟩ 2 false (some (reports [(1, .ecn), (2, .recv)]))]

def agentParams : TcpLikeParams := ⟨3, 0xFFFF, 1, 3, 4, 0⟩

/-- The window and the marked packets after some calls. -/
def outcome (calls : List Call) : Option (ℤ × List ℕ) :=
  ((machine (fun _ _ => 0) agentParams).run (make (fun _ _ => 0) agentParams) calls).map fun done =>
    (done.1.congestion.cwnd, (done.2.filterMap id).map fun r => r.counts.marked true)

end TcpLikeSender

end Ns2
