import Ns2.Dccp.AckVectorMerge
import Ns2.Dccp.TcpLikeWindow

namespace Ns2

/-- The counters of `send_packetRecv` that are set while the ack vector is read. -/
structure PacketCounts extends DataCounts where
  pipe : Bool → ℕ

/-- A packet that the loop looks at. -/
structure Visit where
  seqnum : ℕ
  /-- The packet is in the send history. -/
  data : Bool
  old : DCCPPacketState
  /-- What the received vector says, or `old` below its end. -/
  reported : DCCPPacketState
  /-- What the matrix makes of both. -/
  new : DCCPPacketState

/-- `counts[i]++` -/
def bump (counts : Bool → ℕ) (i : Bool) : Bool → ℕ := Function.update counts i (counts i + 1)

namespace PacketCounts

def zero : PacketCounts where
  ok _ := 0
  marked _ := 0
  okMark _ := 0
  lost _ := 0
  ack _ := 0
  pipe _ := 0
  okMark_le _ := le_rfl

theorem bump_le_bump {f g : Bool → ℕ} (less : ∀ b, f b ≤ g b) (i b : Bool) : bump f i b ≤ bump g i b := by
  unfold bump
  by_cases same : b = i
  · subst same
    rw [Function.update_self, Function.update_self]
    exact Nat.succ_le_succ (less b)
  · rw [Function.update_of_ne same, Function.update_of_ne same]
    exact less b

theorem le_bump (f : Bool → ℕ) (i b : Bool) : f b ≤ bump f i b := by
  unfold bump
  by_cases same : b = i
  · subst same
    rw [Function.update_self]
    exact Nat.le_succ _
  · rw [Function.update_of_ne same]

/-- What a data packet adds; `late` is whether `num_dup_acks_` newer packets have arrived. -/
def count (s : Congestion) (visit : Visit) (late : Bool) (counts : PacketCounts) : PacketCounts :=
  let inWindow := decide (s.seqWinStart ≤ visit.seqnum)
  let acked := { counts with
    ack := bump counts.ack (s.ackWinStart ≤ visit.seqnum)
    pipe := bump counts.pipe (s.seqPipeStart ≤ visit.seqnum) }
  if visit.new ≠ visit.old then
    if visit.old = .notRecv ∧ visit.new = .recv then { acked with ok := bump counts.ok inWindow }
    else if visit.old = .notRecv ∧ visit.new = .ecn then
      { acked with
        marked := bump counts.marked inWindow
        okMark_le := fun b => (counts.okMark_le b).trans (le_bump _ _ b) }
    else if visit.old = .recv ∧ visit.new = .ecn then
      { counts with
        marked := bump counts.marked inWindow
        okMark := bump counts.okMark inWindow
        okMark_le := bump_le_bump counts.okMark_le _ }
    else counts
  else if visit.new = .notRecv ∧ late then { acked with lost := bump counts.lost inWindow }
  else counts

end PacketCounts

/-- What the agent does not change while it sends and receives. -/
structure TcpLikeParams where
  initialCwnd : ℤ
  initialSsthresh : ℤ
  cwndTimeout : ℤ
  numDupAcks : ℤ
  ackvSize : ℕ
  ackvSizeLim : ℕ

/-- The sender of a TCP-like agent. The send history has the numbers of its data packets, the newest one first. -/
structure TcpLikeSender where
  storedAckv : DCCPAckVector
  sendHist : List ℕ
  histLastSeq : ℕ
  seqAllDone : ℕ
  pipe : ℤ
  seqNum : ℕ
  ackvLimSeq : ℕ
  congestion : Congestion

/-- The variables of the loop of `send_packetRecv`, with the packets it has looked at. -/
structure Reading where
  received : DCCPAckVector
  stored : DCCPAckVector
  /-- The history from `elm` on. -/
  elm : List ℕ
  numPackets : ℕ
  newSeqAllDone : ℕ
  ackvRecvEmpty : Bool
  counts : PacketCounts
  visits : List Visit

/-- What the agent knows of the other side, and whether `changeFeature` accepts a change. -/
structure PeerView where
  seqNumRecv : ℕ
  quiescent : Bool
  changesFeature : Bool

namespace TcpLikeSender

/-- `DCCP_FEAT_DEF_ACK_RATIO` -/
def defAckRatio : ℕ := 2

variable (fresh : DCCPAckVector.Fresh) (p : TcpLikeParams)

/-- The values that the constructor and `reset` set alike. -/
def initial (storedAckv : DCCPAckVector) : TcpLikeSender where
  storedAckv
  sendHist := []
  histLastSeq := 0
  seqAllDone := 0
  pipe := 0
  seqNum := 0
  ackvLimSeq := 0
  congestion := .make p.initialCwnd p.initialSsthresh defAckRatio

/-- The constructor. -/
def make : TcpLikeSender := initial p { DCCPAckVector.new fresh p.ackvSize with ackvCons := DCCPAckVector.senderCons }

def reset : TcpLikeSender := initial p (.new fresh p.ackvSize)

def findPacketInSendHistory (seqnum : ℕ) (elm : List ℕ) : List ℕ := elm.dropWhile fun sent => seqnum < sent

def trimSendHistory (trimTo : ℕ) (s : TcpLikeSender) : TcpLikeSender :=
  if s.histLastSeq < trimTo then
    { s with
      sendHist := (s.sendHist.takeWhile fun sent => trimTo < sent) ++ (findPacketInSendHistory trimTo s.sendHist).take 1
      histLastSeq := trimTo }
  else s

/-- `send_packetSent` of a packet, which has the next number. -/
def packetSent (data : Bool) (s : TcpLikeSender) : TcpLikeSender :=
  let s := { s with seqNum := (s.seqNum + 1) % 2 ^ 32 }
  if data then { s with sendHist := s.seqNum :: s.sendHist, pipe := s.pipe + 1 } else s

/-- The stored vector is set up by the first vector that is received after it was empty. -/
def initStored (ackv : DCCPAckVector) (s : TcpLikeSender) : TcpLikeSender :=
  if s.storedAckv.size = 0 then
    let stored := (DCCPAckVector.addPacket fresh ackv.seqTail .notRecv DCCPAckVector.nesting s.storedAckv).2
    let stored := (DCCPAckVector.addPacket fresh ackv.seqHead .notRecv DCCPAckVector.nesting stored).2
    { s with storedAckv := stored, seqAllDone := if s.seqAllDone = 0 then sub32 ackv.seqTail 1 else s.seqAllDone }
  else s

/-- What the loop does with one packet. -/
def visit (s : TcpLikeSender) (seqnum : ℕ) (old reported : DCCPPacketState) (r : Reading) : Reading :=
  let elm := findPacketInSendHistory seqnum r.elm
  let new := s.storedAckv.ackvCons old reported
  let visit : Visit := ⟨seqnum, elm.head? = some seqnum, old, reported, new⟩
  { r with
    elm
    newSeqAllDone := if r.newSeqAllDone = 0 ∧ r.numPackets = p.numDupAcks then seqnum else r.newSeqAllDone
    counts := if visit.data then r.counts.count s.congestion visit (p.numDupAcks ≤ r.numPackets) else r.counts
    numPackets := if new ≠ .notRecv then r.numPackets + 1 else r.numPackets
    visits := r.visits ++ [visit] }

/-- The next packet of the received vector: its number goes on below the end of the vector. -/
def advance (seqnum : ℕ) (r : Reading) : ℕ × DCCPPacketState × Reading :=
  match r.received.nextPacket with
  | (some (seqnum, state), received) => (seqnum, state, { r with received })
  | (none, received) => (sub32 seqnum 1, .notRecv, { r with received, ackvRecvEmpty := true })

/-- The stored state of a packet; `none` where the source aborts, as the stored vector has come to its end. -/
def recallState (firstStored seqnum : ℕ) (r : Reading) : Option (DCCPPacketState × Reading) :=
  if firstStored < seqnum then some (.notRecv, r)
  else match r.stored.nextPacket with
  | (some (_, state), stored) => some (state, { r with stored })
  | (none, _) => none

/-- The loop of `send_packetRecv`. -/
def readFrom (s : TcpLikeSender) (firstStored : ℕ) :
    ℕ → ℕ → DCCPPacketState → DCCPPacketState → Reading → Option Reading
  | 0, _, _, _, _ => none
  | fuel + 1, seqnum, old, reported, r =>
    if seqnum ≤ s.seqAllDone then some r
    else
      let (seqnum, reported, r) := advance seqnum (visit p s seqnum old reported r)
      if seqnum = s.seqAllDone then some r
      else (recallState firstStored seqnum r).bind fun recalled =>
        readFrom s firstStored fuel seqnum recalled.1 (if r.ackvRecvEmpty then recalled.1 else reported) recalled.2

/-- The received and the stored vector, read side by side from the newest packet on. -/
def readVectors (ackNum : ℕ) (ackv : DCCPAckVector) (s : TcpLikeSender) : Option Reading :=
  let stored := s.storedAckv.startPacketWalk
  let elm := findPacketInSendHistory ackNum s.sendHist
  match ackv.startPacketWalk.nextPacket with
  | (none, _) => none
  | (some (seqnum, reported), received) =>
    let r : Reading := ⟨received, stored, elm, 0, 0, false, .zero, []⟩
    let fuel := seqnum - s.seqAllDone + 1
    if s.storedAckv.seqHead < seqnum then readFrom p s s.storedAckv.seqHead fuel seqnum .notRecv reported r
    else match stored.nextPacket with
    | (none, _) => none
    | (some (seqnumOld, old), stored) =>
      if seqnumOld ≠ seqnum then none else readFrom p s s.storedAckv.seqHead fuel seqnum old reported { r with stored }

/-- What is kept of the vectors once they have been read. -/
def settle (r : Reading) (s : TcpLikeSender) : TcpLikeSender :=
  let s := { s with seqAllDone := if s.seqAllDone < r.newSeqAllDone then r.newSeqAllDone else s.seqAllDone }
  let merged := DCCPAckVector.mergeWith fresh r.received r.stored
  let s := { s with storedAckv := merged.2.1.removePackets s.seqAllDone }
  let s := s.trimSendHistory (if s.seqAllDone < r.received.seqTail then s.seqAllDone else r.received.seqTail)
  { s with pipe := s.pipe - r.counts.pipe true }

/-- An ack of acks is asked for as soon as the vector exceeds `ackv_size_lim_`. -/
def limitAckVector (view : AgentView) (ackNum size : ℕ) (s : TcpLikeSender) : TcpLikeSender :=
  if 0 < p.ackvSizeLim ∧ p.ackvSizeLim < size ∧ s.ackvLimSeq < ackNum ∧ view.quiescent then
    { s with congestion := s.congestion.askAck view, ackvLimSeq := view.seqNum }
  else s

/-- The calls that reach the sender. `feature` sets the ack ratio that the other side has confirmed. -/
inductive Call
  | sent (data : Bool)
  | data (peer : PeerView) (lostAck : Bool)
  | ack (peer : PeerView) (ackNum : ℕ) (lostAck : Bool) (ackv : Option DCCPAckVector)
  | timeout (peer : PeerView)
  | feature (ratio : ℕ)
  | reset

def view (peer : PeerView) (s : TcpLikeSender) : AgentView := ⟨s.seqNum, peer.seqNumRecv, peer.quiescent, peer.changesFeature⟩

/-- A call that only reaches the congestion variables. -/
def congest (i : Congestion.Input) (s : TcpLikeSender) : Option TcpLikeSender :=
  (Congestion.step p.cwndTimeout s.congestion i).map fun done => { s with congestion := done.1 }

/-- An ack vector that is not too old, with what was read; `none` where the source aborts. -/
def recvVector (peer : PeerView) (ackNum : ℕ) (lostAck : Bool) (ackv : DCCPAckVector) (s : TcpLikeSender) :
    Option (TcpLikeSender × Reading) :=
  let s := s.initStored fresh ackv
  if s.seqAllDone < s.histLastSeq then none
  else (s.readVectors p ackNum ackv).bind fun r =>
    let s := s.settle fresh r
    if s.pipe < 0 then none
    else (s.congest p (.ack (s.view peer) ackNum lostAck (some r.counts.toDataCounts))).map fun t =>
      (t.limitAckVector p (s.view peer) ackNum ackv.size, r)

/-- The acknowledgements of `send_packetRecv`. -/
def recvAck (peer : PeerView) (ackNum : ℕ) (lostAck : Bool) (ackv : Option DCCPAckVector) (s : TcpLikeSender) :
    Option (TcpLikeSender × Option Reading) :=
  match ackv.filter fun ackv => 0 < ackv.size with
  | none => (s.congest p (.ack (s.view peer) ackNum lostAck none)).map fun t => (t, none)
  | some ackv =>
    if s.congestion.highAckRecv ≤ ackNum then (s.recvVector fresh p peer ackNum lostAck ackv).map fun done => (done.1, some done.2)
    else (s.congest p (.ack (s.view peer) ackNum lostAck (some PacketCounts.zero.toDataCounts))).map fun t => (t, none)

def step (s : TcpLikeSender) : Call → Option (TcpLikeSender × Option Reading)
  | .sent data => some (s.packetSent data, none)
  | .data peer lostAck => (s.congest p (.data (s.view peer) lostAck)).map fun t => (t, none)
  | .ack peer ackNum lostAck ackv => s.recvAck fresh p peer ackNum lostAck ackv
  | .timeout peer => (s.congest p (.timeout (s.view peer))).map fun t => ({ t with pipe := 0 }, none)
  | .feature ratio => (s.congest p (.feature ratio)).map fun t => (t, none)
  | .reset => some (reset fresh p, none)

def machine : Machine TcpLikeSender Call (Option Reading) := ⟨step fresh p⟩

end TcpLikeSender

end Ns2
