import Mathlib.Logic.Function.Basic
import Ns2.Library.Machine
import Ns2.Routing.LsMessages

namespace Ns2

/-- The old links with one new link state, and whether it says anything new. -/
def updateLink (own : Bool) : List LsLinkState → LsLinkState → List LsLinkState × Bool
  | [], new => ([new], true)
  | old :: rest, new =>
    if new.neighborId = old.neighborId then
      ({ old with
        sequenceNumber := if own then old.sequenceNumber else new.sequenceNumber,
        status := new.status,
        cost := new.cost } :: rest, new.status ≠ old.status ∨ new.cost ≠ old.cost)
    else
      let (rest, changed) := updateLink own rest new
      (old :: rest, changed)

def updateLinks (own : Bool) (old new : List LsLinkState) : List LsLinkState × Bool :=
  new.foldl (fun (links, changed) link => ((updateLink own links link).1, changed || (updateLink own links link).2)) (old, false)

def LsTopoMap.update (db : LsTopoMap) (myNodeId nodeId : ℕ) (linkStateList : List LsLinkState) : LsTopoMap × Bool :=
  match db.find nodeId with
  | none => (db.insert nodeId linkStateList, true)
  | some old => (db.set nodeId (updateLinks (nodeId = myNodeId) old linkStateList).1, (updateLinks (nodeId = myNodeId) old linkStateList).2)

/-- `LsRouting` and the node that it resides in. A message in the buffer stands for the pointer to it. -/
structure LsRouter where
  myNodeId : ℕ
  peerIdList : List ℕ
  linkStateList : List LsLinkState
  linkStateDatabase : LsTopoMap
  lsaHistory : LsMessageHistory
  tpmHistory : LsMessageHistory
  ackManager : LsRetransmissionManager
  messageBuffer : List (ℕ × U32)

namespace LsRouter

def init (myNodeId : ℕ) (peerIdList : List ℕ) (linkStateList : List LsLinkState) (delayMap : List ℕ) : LsRouter where
  myNodeId := myNodeId
  peerIdList := peerIdList
  linkStateList := linkStateList
  linkStateDatabase := SortedMap.empty.insert myNodeId linkStateList
  lsaHistory := .empty
  tpmHistory := .empty
  ackManager := delayMap.foldl (fun m id => m.insert id LsRetransmissionManager.idle) .empty
  messageBuffer := []

def isUp (r : LsRouter) (neighborId : ℕ) : Bool :=
  match r.linkStateList.find? fun link => link.neighborId = neighborId with
  | none => false
  | some link => link.status = .up

end LsRouter

/-- What one event works on: a node, the message center, and the messages that it sends. What every
LSA was generated from is noted in `made`, which nothing reads. -/
structure LsLocal where
  router : LsRouter
  center : LsMessageCenter
  sends : List (ℕ × U32)
  made : U32 → List LsLinkState

namespace LsLocal

def sendMessage (l : LsLocal) (destId : ℕ) (msgId : U32) : LsLocal :=
  if destId ∈ l.router.peerIdList then { l with sends := l.sends ++ [(destId, msgId)] } else l

def messageOut (l : LsLocal) (peerId : ℕ) (msg : LsMessage) : LsLocal :=
  { l with router := { l.router with ackManager := l.router.ackManager.messageOut peerId msg } }

def bufferedSend (l : LsLocal) (peerId : ℕ) (msg : LsMessage) : LsLocal :=
  { l with router := { l.router with messageBuffer := l.router.messageBuffer ++ [(peerId, msg.messageId)] } }

def sendAck (l : LsLocal) (nbrId : ℕ) (type : LsMessageType) (originNodeIdAcked : ℕ) (seqAcked : U32) : Option LsLocal := do
  let (center, msg) ← l.center.newMessage l.router.myNodeId type
  let l := { l with center := center.write { msg with originNodeId := originNodeIdAcked, sequenceNumber := seqAcked } }
  return l.sendMessage nbrId msg.messageId

def forward (senderId : ℕ) (msg : LsMessage) (l : LsLocal) (peerId : ℕ) : LsLocal :=
  if peerId = msg.originNodeId ∨ peerId = senderId then l
  else if l.router.isUp peerId then (l.messageOut peerId msg).sendMessage peerId msg.messageId
  else l

/-- What follows when the message is new. -/
def acceptLSA (l : LsLocal) (senderId : ℕ) (msg : LsMessage) : LsLocal :=
  let l := l.router.peerIdList.foldl (forward senderId msg) l
  match msg.content with
  | .lsl list =>
    { l with router := { l.router with
        linkStateDatabase := (l.router.linkStateDatabase.update l.router.myNodeId msg.originNodeId list).1 } }
  | _ => l

def receiveLSA (l : LsLocal) (senderId : ℕ) (msg : LsMessage) : Option LsLocal := do
  let l ← l.sendAck senderId .lsaAck msg.originNodeId msg.messageId
  if msg.originNodeId = l.router.myNodeId then return l
  else
    let (new, history) := l.router.lsaHistory.isNewMessage msg
    if new then return acceptLSA { l with router := { l.router with lsaHistory := history } } senderId msg
    else return l

/-- `none` is the call of `ls_error`. The new message is left without its link states. -/
def regenAndSend (l : LsLocal) (exception origin : ℕ) (lsl : List LsLinkState) : Option LsLocal :=
  match lsl with
  | [] => none
  | first :: _ => do
    let (center, msg) ← l.center.newMessage origin .lsa
    let msg := { msg with sequenceNumber := first.sequenceNumber, originNodeId := origin }
    let l := { l with center := center.write msg, made := Function.update l.made msg.messageId lsl }
    return l.router.peerIdList.foldl (fun l peerId =>
      if peerId = origin ∨ peerId = exception ∨ ¬ l.router.isUp peerId then l else l.bufferedSend peerId msg) l

/-- Whether the record of a topology message is newer. `none` where the record that is read is empty. -/
def newer (mine : Option (List LsLinkState)) (record : List LsLinkState) : Option Bool :=
  match mine with
  | none => some true
  | some [] => some true
  | some (old :: _) =>
    match record with
    | [] => none
    | new :: _ => some (old.sequenceNumber < new.sequenceNumber ∨ LS_WRAPAROUND_THRESHOLD < old.sequenceNumber - new.sequenceNumber)

def receiveRecord (neighborId : ℕ) (l : LsLocal) (record : ℕ × List LsLinkState) : Option LsLocal :=
  if record.1 = l.router.myNodeId then some l
  else do
    let new ← newer (l.router.linkStateDatabase.find record.1) record.2
    if new then
      regenAndSend { l with router := { l.router with linkStateDatabase := l.router.linkStateDatabase.set record.1 record.2 } }
        neighborId record.1 record.2
    else return l

def receiveTopo (l : LsLocal) (neighborId : ℕ) (msg : LsMessage) (topo : ℕ → LsTopoMap) : Option LsLocal := do
  let l ← l.sendAck neighborId .tpmAck neighborId msg.sequenceNumber
  let (new, history) := l.router.tpmHistory.isNewMessage msg
  if new then
    let l := { l with router := { l.router with tpmHistory := history } }
    match msg.content with
    | .topo node => (topo node).entries.foldlM (receiveRecord neighborId) l
    | _ => return l
  else return l

def receiveAck (l : LsLocal) (neighborId : ℕ) (msg : LsMessage) : Option LsLocal := do
  let ackManager ← l.router.ackManager.ackIn neighborId msg
  return { l with router := { l.router with ackManager }, center := l.center.deleteMessage msg.messageId }

def receiveMessage (l : LsLocal) (senderId : ℕ) (msgId : U32) (topo : ℕ → LsTopoMap) : Option LsLocal :=
  if senderId = LS_INVALID_NODE_ID then some l
  else
    match l.center.retrieveMessagePtr msgId with
    | none => some l
    | some msg =>
      match msg.type with
      | .tpm => l.receiveTopo senderId msg topo
      | .lsa => l.receiveLSA senderId msg
      | .lsaAck => l.receiveAck senderId msg
      | .tpmAck => l.receiveAck senderId msg

def sendLinkStates (l : LsLocal) (buffer : Bool) : Option LsLocal :=
  if l.router.peerIdList = [] then some l
  else
    match l.router.linkStateDatabase.find l.router.myNodeId with
    | none => some l
    | some [] => some l
    | some myLSL => do
      let (center, msg) ← l.center.newMessage l.router.myNodeId .lsa
      let myLSL := myLSL.map fun link => { link with sequenceNumber := msg.sequenceNumber }
      let msg := { msg with content := .lsl myLSL }
      let l := { l with
        router := { l.router with linkStateDatabase := l.router.linkStateDatabase.set l.router.myNodeId myLSL },
        center := center.write msg,
        made := Function.update l.made msg.messageId myLSL }
      return l.router.peerIdList.foldl (fun l peerId =>
        if ¬ l.router.isUp peerId then l
        else if buffer then l.bufferedSend peerId msg
        else (l.sendMessage peerId msg.messageId).messageOut peerId msg) l

def sendTopo (l : LsLocal) (neighborId : ℕ) : Option LsLocal := do
  let (center, msg) ← l.center.newMessage l.router.myNodeId .tpm
  let msg := { msg with content := .topo l.router.myNodeId }
  return { l with center := center.write msg }.bufferedSend neighborId msg

/-- The links that went down or came up. `none` where the old and the new ones are not aligned. -/
def compareLinks (l : LsLocal) : List LsLinkState → List LsLinkState → Option LsLocal
  | [], _ => some l
  | _ :: _, [] => none
  | new :: news, old :: olds =>
    if new.neighborId ≠ old.neighborId then none
    else do
      let l := if new.status = .down then
        { l with router := { l.router with ackManager := l.router.ackManager.cancelTimer new.neighborId } } else l
      let l ← if new.status = .down ∨ old.status = .up then some l else l.sendTopo new.neighborId
      l.compareLinks news olds

def linkStateChanged (l : LsLocal) : Option LsLocal := do
  let oldlsl ← l.router.linkStateDatabase.find l.router.myNodeId
  let (db, changed) := l.router.linkStateDatabase.update l.router.myNodeId l.router.myNodeId l.router.linkStateList
  let l := { l with router := { l.router with linkStateDatabase := db } }
  let l ← if changed then l.sendLinkStates true else some l
  l.compareLinks l.router.linkStateList oldlsl

/-- `none` where the message that a pointer of the buffer leads to has been recycled. -/
def flush (l : LsLocal) (entry : ℕ × U32) : Option LsLocal := do
  let msg ← l.center.retrieveMessagePtr entry.2
  return (l.messageOut entry.1 msg).sendMessage entry.1 entry.2

def sendBufferedMessages (l : LsLocal) : Option LsLocal := do
  let l ← l.router.messageBuffer.foldlM flush l
  return { l with router := { l.router with messageBuffer := [] } }

def resendMessages (l : LsLocal) (peerId : ℕ) : Option LsLocal := do
  let (ackManager, msgIds) ← l.router.ackManager.resendMessages peerId
  return msgIds.foldl (fun l msgId => l.sendMessage peerId msgId) { l with router := { l.router with ackManager } }

end LsLocal

/-- A packet carries the number of its message. What the message was when it was sent, and the message
that its sender was just receiving, are noted beside it. -/
structure LsPacket where
  src : ℕ
  dst : ℕ
  msgId : U32
  sent : Option LsMessage
  about : Option LsMessage
deriving DecidableEq

/-- `node` has the acknowledgment of the message from `peer`, and has not sent the message there since. -/
structure LsAcked where
  node : ℕ
  peer : ℕ
  msg : LsMessage
deriving DecidableEq

structure LsSystem where
  nodes : ℕ → LsRouter
  center : LsMessageCenter
  packets : List LsPacket
  made : U32 → List LsLinkState
  acked : List LsAcked

inductive LsEvent
  | intfChanged (node : ℕ) (links : List LsLinkState)
  | sendUpdates (node : ℕ)
  | sendBufferedMessages (node : ℕ)
  | deliver (i : ℕ)
  | lose (i : ℕ)
  | timeout (node peer : ℕ)

namespace LsPacket

/-- The packet is an acknowledgment, and of which message. -/
def acks (p : LsPacket) : Option LsMessage :=
  match p.sent with
  | some msg => if msg.type = .lsaAck ∨ msg.type = .tpmAck then p.about else none
  | none => none

end LsPacket

namespace LsSystem

def init (nodes : ℕ → LsRouter) (center : LsMessageCenter) : LsSystem := ⟨nodes, center, [], fun _ => [], []⟩

def enter (s : LsSystem) (node : ℕ) : LsLocal := ⟨s.nodes node, s.center, [], s.made⟩

/-- The system after an event at a node, with the packets that it sent. -/
def leave (s : LsSystem) (node : ℕ) (about : Option LsMessage) (l : LsLocal) : LsSystem where
  nodes := Function.update s.nodes node l.router
  center := l.center
  packets := s.packets ++ l.sends.map fun send => ⟨node, send.1, send.2, l.center.retrieveMessagePtr send.2, about⟩
  made := l.made
  acked := s.acked

/-- A message that is sent anew is to be acknowledged anew. -/
def renew (s : LsSystem) (node : ℕ) (l : LsLocal) : LsSystem :=
  { s with acked := s.acked.filter fun a => ¬ (a.node = node ∧ (a.peer, a.msg.messageId) ∈ l.sends) }

def findPeerNodeId (s : LsSystem) (node src : ℕ) : ℕ := if src ∈ (s.nodes node).peerIdList then src else LS_INVALID_NODE_ID

def receive (s : LsSystem) (p : LsPacket) : Option LsSystem := do
  let l ← (s.enter p.dst).receiveMessage (s.findPeerNodeId p.dst p.src) p.msgId fun node => (s.nodes node).linkStateDatabase
  let t := (s.renew p.dst l).leave p.dst (s.center.retrieveMessagePtr p.msgId) l
  match p.acks with
  | none => return t
  | some msg => return { t with acked := ⟨p.dst, p.src, msg⟩ :: t.acked }

def step (s : LsSystem) : LsEvent → Option LsSystem
  | .intfChanged node links => do
    let start := s.enter node
    let l ← { start with router := { start.router with linkStateList := links } }.linkStateChanged
    return (s.renew node l).leave node none l
  | .sendUpdates node => do
    let l ← (s.enter node).sendLinkStates false
    return (s.renew node l).leave node none l
  | .sendBufferedMessages node => do
    let l ← (s.enter node).sendBufferedMessages
    return (s.renew node l).leave node none l
  | .deliver i => do
    let p ← s.packets[i]?
    { s with packets := s.packets.eraseIdx i }.receive p
  | .lose i => some { s with packets := s.packets.eraseIdx i }
  | .timeout node peer => do
    let l ← (s.enter node).resendMessages peer
    return s.leave node none l

def machine : Machine LsSystem LsEvent Unit := ⟨fun s e => (s.step e).map fun t => (t, ())⟩

end LsSystem

end Ns2
