import Ns2.Dccp.AckVectorMerge

namespace Ns2

namespace DCCPAckVector

variable (fresh : Fresh)

theorem addItems_ackvCons (state : DCCPPacketState) (runlen count depth : ℕ) (v : DCCPAckVector) :
    (addItems fresh state runlen count depth v).2.ackvCons = v.ackvCons := by
  induction depth generalizing v with
  | zero => rfl
  | succ depth ih =>
    rw [addItems]
    split
    · cases doubled : v.doubleMaxSize fresh with
      | none => rfl
      | some w => exact (ih w).trans (double_alike doubled).ackvCons
    · rfl

theorem replaceItem_ackvCons (place : ℕ) (items : List (BitVec 8)) (v : DCCPAckVector) : (v.replaceItem place items).ackvCons = v.ackvCons := by
  unfold replaceItem
  dsimp only
  split
  · rfl
  · split <;> rfl

theorem alterState_ackvCons (seqnum : ℕ) (state : DCCPPacketState) (depth : ℕ) (v : DCCPAckVector) :
    (alterState fresh seqnum state depth v).2.2.ackvCons = v.ackvCons := by
  induction depth generalizing v with
  | zero => rfl
  | succ depth ih =>
    rw [alterState]
    cases v.findSeqNum seqnum with
    | none => rfl
    | some found =>
      dsimp only
      split
      · rfl
      split
      · rfl
      split
      · cases doubled : v.doubleMaxSize fresh with
        | none => rfl
        | some w => exact (ih w).trans (double_alike doubled).ackvCons
      · exact replaceItem_ackvCons ..

theorem addPacket_ackvCons (seqnum : ℕ) (state : DCCPPacketState) (depth : ℕ) (v : DCCPAckVector) :
    (addPacket fresh seqnum state depth v).2.ackvCons = v.ackvCons := by
  induction depth generalizing v with
  | zero => rfl
  | succ depth ih =>
    rw [addPacket]
    dsimp only
    split
    · exact addItems_ackvCons fresh ..
    split
    · -- a gap
      split
      · cases doubled : v.doubleMaxSize fresh with
        | none => rfl
        | some w => exact (ih w).trans (double_alike doubled).ackvCons
      · rw [addItems_ackvCons, addItems_ackvCons]
        split
        · exact addItems_ackvCons fresh ..
        · rfl
    split
    · -- the next packet
      split
      · rfl
      · exact addItems_ackvCons fresh ..
    · cases v.getState seqnum with
      | none => rfl
      | some old => exact alterState_ackvCons fresh ..

theorem setAckVector_ackvCons (vect : List (BitVec 8)) (seqStart : ℕ) (ene : BitVec 8) (depth : ℕ) (v : DCCPAckVector) :
    (setAckVector fresh vect seqStart ene depth v).2.ackvCons = v.ackvCons := by
  induction depth generalizing v with
  | zero => rfl
  | succ depth ih =>
    rw [setAckVector]
    split
    · dsimp only
      cases doubled : doubleMaxSize fresh { v with size := 0 } with
      | none => rfl
      | some w => exact (ih w).trans (double_alike doubled).ackvCons
    · rfl

theorem mergeFrom_ackvCons (fuel : ℕ) (a v : DCCPAckVector) : (mergeFrom fresh fuel a v).1.ackvCons = v.ackvCons := by
  induction fuel generalizing a v with
  | zero => rfl
  | succ fuel ih =>
    rw [mergeFrom]
    obtain ⟨packet, walked⟩ := a.prevPacket
    cases packet with
    | none => rfl
    | some packet =>
      dsimp only
      split
      · exact addPacket_ackvCons fresh ..
      · exact (ih walked _).trans (addPacket_ackvCons fresh ..)

theorem mergeWith_ackvCons (a v : DCCPAckVector) : (mergeWith fresh a v).2.1.ackvCons = v.ackvCons := by
  unfold mergeWith
  split
  · rfl
  split
  · cases a.getAckVector with
    | none => rfl
    | some vect => exact setAckVector_ackvCons fresh ..
  · exact mergeFrom_ackvCons fresh ..

theorem nextPacket_ackvCons (v : DCCPAckVector) : v.nextPacket.2.ackvCons = v.ackvCons := by
  unfold nextPacket
  split <;> rfl

end DCCPAckVector

end Ns2
