import Ns2.Library.Machine
import Mathlib.Algebra.Order.Field.Rat
import Mathlib.Tactic.Linarith

namespace Ns2

/-- What an acknowledgement reports of the data packets: index `true` is the window since the last congestion event. -/
structure DataCounts where
  ok : Bool → ℕ
  marked : Bool → ℕ
  okMark : Bool → ℕ
  lost : Bool → ℕ
  ack : Bool → ℕ
  /-- A packet that was ok before is counted as marked too. -/
  okMark_le : ∀ b, okMark b ≤ marked b

/-- What the routines ask the rest of the agent. -/
structure AgentView where
  seqNum : ℕ
  seqNumRecv : ℕ
  /-- `detectQuiescence` -/
  quiescent : Bool
  /-- Whether `changeFeature` accepts a change of the ack ratio. -/
  changesFeature : Bool

/-- The congestion variables of the TCP-like agent. -/
structure Congestion where
  cwnd : ℤ
  cwndFrac : ℤ
  ssthresh : ℤ
  recvAckRatio : ℕ
  ackRatioRemote : ℕ
  numAckInWin : ℤ
  numWinAcked : ℤ
  ackWinStart : ℕ
  seqWinStart : ℕ
  seqPipeStart : ℕ
  highAckRecv : ℕ
  skipAckLoss : Bool
  sendAck : Bool
  ackNum : ℕ

namespace Congestion

/-- `recv_ack_ratio_` is an `u_int16_t`. -/
def toU16 (x : ℤ) : ℕ := (x % 2 ^ 16).toNat

/-- The constructor, and what `reset` sets. -/
def make (initialCwnd initialSsthresh : ℤ) (ackRatioRemote : ℕ) : Congestion where
  cwnd := initialCwnd
  cwndFrac := 0
  ssthresh := initialSsthresh
  recvAckRatio := toU16 ackRatioRemote
  ackRatioRemote := ackRatioRemote
  numAckInWin := 0
  numWinAcked := 0
  ackWinStart := 0
  seqWinStart := 0
  seqPipeStart := 0
  highAckRecv := 0
  skipAckLoss := false
  sendAck := false
  ackNum := 0

def checkAckRatio (s : Congestion) : Bool × Congestion :=
  let temp := s.cwnd.tdiv 2
  let temp := if s.cwnd.tmod 2 > 0 then temp + 1 else temp
  let lowered : Bool := (s.recvAckRatio : ℤ) > temp
  let s := if lowered then { s with recvAckRatio := toU16 temp } else s
  if s.cwnd ≥ 4 ∧ s.recvAckRatio < 2 then (true, { s with recvAckRatio := 2 })
  else if s.recvAckRatio = 0 then (true, { s with recvAckRatio := 1 })
  else (lowered, s)

def changeRemoteAckRatio (view : AgentView) (s : Congestion) : Congestion :=
  if s.recvAckRatio ≠ s.ackRatioRemote ∧ view.changesFeature then { s with ackRatioRemote := s.recvAckRatio } else s

/-- With the divisors of the divisions that are made. A division by zero gives no finite number of windows. -/
def updateAckRatio (numAck : ℤ) (s : Congestion) : List ℤ × Congestion :=
  if s.recvAckRatio = 1 then ([], { s with numAckInWin := 0, numWinAcked := 0 })
  else
    let s := { s with numAckInWin := s.numAckInWin + numAck }
    if numAck > 0 ∧ s.numAckInWin ≥ s.cwnd then
      let s := { s with numWinAcked := s.numWinAcked + 1, numAckInWin := s.numAckInWin - s.cwnd }
      let divisor : ℤ := s.recvAckRatio * (s.recvAckRatio - 1)
      if divisor ≠ 0 ∧ (s.numWinAcked : ℚ) > s.cwnd / divisor then
        let s := { s with recvAckRatio := toU16 (s.recvAckRatio - 1) }
        ([divisor], { s.checkAckRatio.2 with numWinAcked := 0 })
      else ([divisor], s)
    else ([], s)

def lostOrMarkedAck (view : AgentView) (s : Congestion) : Congestion :=
  let s := { s with ackWinStart := view.seqNum, numWinAcked := 0, numAckInWin := 0, skipAckLoss := true }
  (checkAckRatio { s with recvAckRatio := toU16 (s.recvAckRatio * 2) }).2

/-- The loop of `updateCwnd`; `none` if it has not come to its end. -/
def growWindow : ℕ → ℤ → ℤ → Option (ℤ × ℤ)
  | 0, _, _ => none
  | fuel + 1, cwnd, cwndFrac => if cwndFrac ≥ cwnd then growWindow fuel (cwnd + 1) (cwndFrac - cwnd) else some (cwnd, cwndFrac)

/-- An ack of acks is asked for when the other side has nothing to send. -/
def askAck (view : AgentView) (s : Congestion) : Congestion :=
  if view.quiescent then { s with sendAck := true, ackNum := view.seqNumRecv } else s

/-- Slow start, with what is left of the packets. -/
def slowStart (view : AgentView) (numIncCwnd : ℤ) (s : Congestion) : ℤ × Congestion :=
  if s.cwnd < s.ssthresh then
    let moved := if numIncCwnd > s.ackRatioRemote then (numIncCwnd - s.ackRatioRemote, { s with cwnd := s.cwnd + s.ackRatioRemote })
      else (0, { s with cwnd := s.cwnd + numIncCwnd })
    let s := moved.2
    let held := if s.cwnd < s.ssthresh then (0, s) else (moved.1 + (s.cwnd - s.ssthresh), { s with cwnd := s.ssthresh })
    let s := held.2
    (held.1, if s.cwnd = s.ssthresh then askAck view { s with cwndFrac := 0 } else s)
  else (numIncCwnd, s)

/-- Congestion avoidance; `none` if the loop does not end. -/
def avoidCongestion (view : AgentView) (oldCwnd numIncCwnd : ℤ) (s : Congestion) : Option Congestion :=
  if numIncCwnd > 0 ∧ s.cwnd ≥ s.ssthresh then
    (growWindow ((s.cwndFrac + numIncCwnd).toNat + 1) s.cwnd (s.cwndFrac + numIncCwnd)).map fun grown =>
      let s := { s with cwnd := grown.1, cwndFrac := grown.2 }
      if s.cwnd ≠ oldCwnd then askAck view s else s
  else some s

def updateCwnd (view : AgentView) (numIncCwnd : ℤ) (s : Congestion) : Option Congestion :=
  let oldCwnd := s.cwnd
  let started := slowStart view numIncCwnd s
  (avoidCongestion view oldCwnd started.1 started.2).map fun s => if oldCwnd < s.cwnd then s.checkAckRatio.2 else s

def lostOrMarkedData (view : AgentView) (s : Congestion) : Congestion :=
  let s := { s with cwnd := if s.cwnd ≥ 2 then s.cwnd.tdiv 2 else s.cwnd }
  { s with cwndFrac := 0, ssthresh := s.cwnd, seqWinStart := view.seqNum }

/-- The newly acknowledged packets. -/
def numIncCwnd (counts : DataCounts) : ℤ :=
  counts.ok true + counts.marked true - counts.okMark true + counts.ok false + counts.marked false - counts.okMark false

/-- What lost and marked data packets do, with the packets that remain to be counted for the ack ratio. -/
def handleLosses (view : AgentView) (counts : DataCounts) (s : Congestion) : ℤ × Congestion :=
  if counts.lost true > 0 ∨ counts.marked true > 0 then
    let checked := checkAckRatio { lostOrMarkedData view s with numAckInWin := 0 }
    let s := checked.2
    if checked.1 then (0, askAck view { s with numWinAcked := 0, ackWinStart := view.seqNum }) else (counts.ack true, askAck view s)
  else (counts.ack true, s)

/-- The end of `send_packetRecv`, after the ack vector has been read. -/
def acknowledge (view : AgentView) (lostAck : Bool) (counts : DataCounts) (s : Congestion) : Option (List ℤ × Congestion) :=
  (updateCwnd view (numIncCwnd counts) s).map fun s =>
    let handled := handleLosses view counts s
    let s := handled.2
    if ¬s.skipAckLoss ∧ lostAck then ([], lostOrMarkedAck view s) else updateAckRatio handled.1 s

/-- `timeout` of the timer TO, without the timer. -/
def timeoutTO (cwndTimeout : ℤ) (view : AgentView) (s : Congestion) : Congestion :=
  let s := { s with ssthresh := if s.cwnd.tdiv 2 = 0 then 1 else s.cwnd.tdiv 2 }
  let s := { s with
    cwnd := cwndTimeout
    seqPipeStart := view.seqNum
    seqWinStart := view.seqNum
    cwndFrac := 0
    numAckInWin := 0
    numWinAcked := 0
    ackWinStart := view.seqNum
    recvAckRatio := 1 }
  changeRemoteAckRatio view s.checkAckRatio.2

/-- The calls that reach the congestion variables; `counts` is `none` for an acknowledgement without an ack vector, and
`feature` sets the ack ratio that the other side has confirmed. -/
inductive Input
  | data (view : AgentView) (lostAck : Bool)
  | ack (view : AgentView) (ackNum : ℕ) (lostAck : Bool) (counts : Option DataCounts)
  | timeout (view : AgentView)
  | feature (ratio : ℕ)

/-- The acknowledgements of `send_packetRecv`. -/
def recvAck (view : AgentView) (ackNum : ℕ) (lostAck : Bool) (counts : Option DataCounts) (s : Congestion) : Option (List ℤ × Congestion) :=
  let s := { s with skipAckLoss := ackNum < s.ackWinStart }
  match counts with
  | none => some ([], if lostAck then lostOrMarkedAck view s else s)
  | some counts =>
    if ackNum ≥ s.highAckRecv then acknowledge view lostAck counts { s with highAckRecv := ackNum }
    else some ([], if ¬s.skipAckLoss ∧ lostAck then lostOrMarkedAck view s else s)

def step (cwndTimeout : ℤ) (s : Congestion) : Input → Option (Congestion × List ℤ)
  | .data view lostAck => some (changeRemoteAckRatio view (if ¬s.skipAckLoss ∧ lostAck then lostOrMarkedAck view s else s), [])
  | .ack view ackNum lostAck counts => (recvAck view ackNum lostAck counts s).map fun done => (changeRemoteAckRatio view done.2, done.1)
  | .timeout view => some (timeoutTO cwndTimeout view s, [])
  | .feature ratio => some ({ s with ackRatioRemote := toU16 ratio }, [])

def machine (cwndTimeout : ℤ) : Machine Congestion Input (List ℤ) := ⟨step cwndTimeout⟩

end Congestion

end Ns2
