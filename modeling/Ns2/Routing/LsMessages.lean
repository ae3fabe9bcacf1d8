import Mathlib.Order.Fin.Basic
import Ns2.Routing.LsPaths

namespace Ns2

def LS_INVALID_MESSAGE_ID : U32 := 0
def LS_MESSAGE_CENTER_SIZE_FACTOR : ℕ := 4
def LS_WRAPAROUND_THRESHOLD : U32 := 1073741824

inductive LsMessageType
  | lsa
  | tpm
  | lsaAck
  | tpmAck
deriving DecidableEq

/-- The union behind `contentPtr_`. A topology message points to the database of the node that sends it. -/
inductive LsContent
  | null
  | lsl (list : List LsLinkState)
  | topo (node : ℕ)
deriving DecidableEq

structure LsMessage where
  type : LsMessageType
  messageId : U32
  sequenceNumber : U32
  originNodeId : ℕ
  content : LsContent
deriving DecidableEq

structure LsMessageCenter where
  current_lsa_id : U32
  current_other_id : U32
  max_size : ℕ
  lsa_messages : SortedMap U32 LsMessage
  other_messages : SortedMap U32 LsMessage
deriving DecidableEq

namespace LsMessageCenter

def make : LsMessageCenter where
  current_lsa_id := LS_INVALID_MESSAGE_ID + 1
  current_other_id := LS_INVALID_MESSAGE_ID + 2
  max_size := 0
  lsa_messages := .empty
  other_messages := .empty

def setNodeNumber (c : LsMessageCenter) (number_of_nodes : ℕ) : LsMessageCenter :=
  { c with max_size := number_of_nodes * LS_MESSAGE_CENTER_SIZE_FACTOR }

/-- The counter two on, with the invalid number left out. -/
def after (id : U32) : U32 := if id + 2 = LS_INVALID_MESSAGE_ID then id + 2 + 2 else id + 2

/-- The first message goes when there are too many. -/
def recycle (storage : SortedMap U32 LsMessage) (max_size : ℕ) : SortedMap U32 LsMessage :=
  if max_size ≤ storage.entries.length then
    match storage.entries with
    | [] => storage
    | e :: _ => storage.erase e.1
  else storage

def isLSA (msgId : U32) : Bool := msgId.val % 2 = 1

/-- `none` is the call of `ls_error`: the number is in use. -/
def newMessage (c : LsMessageCenter) (nodeId : ℕ) (type : LsMessageType) : Option (LsMessageCenter × LsMessage) :=
  let c := if c.max_size = 0 then { c with max_size := 300 } else c
  if type = .lsa ∨ type = .tpm then
    let storage := recycle c.lsa_messages c.max_size
    let msg : LsMessage := ⟨type, c.current_lsa_id, c.current_lsa_id, nodeId, .null⟩
    if (storage.find c.current_lsa_id).isSome then none
    else some ({ c with current_lsa_id := after c.current_lsa_id, lsa_messages := storage.set c.current_lsa_id msg }, msg)
  else
    let storage := recycle c.other_messages c.max_size
    let msg : LsMessage := ⟨type, c.current_other_id, c.current_other_id, nodeId, .null⟩
    if (storage.find c.current_other_id).isSome then none
    else some ({ c with current_other_id := after c.current_other_id, other_messages := storage.set c.current_other_id msg }, msg)

def retrieveMessagePtr (c : LsMessageCenter) (msgId : U32) : Option LsMessage :=
  if isLSA msgId then c.lsa_messages.find msgId else c.other_messages.find msgId

/-- The message is written through its pointer. -/
def write (c : LsMessageCenter) (msg : LsMessage) : LsMessageCenter :=
  if msg.type = .lsa ∨ msg.type = .tpm then { c with lsa_messages := c.lsa_messages.set msg.messageId msg }
  else { c with other_messages := c.other_messages.set msg.messageId msg }

def deleteMessage (c : LsMessageCenter) (msgId : U32) : LsMessageCenter := { c with other_messages := c.other_messages.erase msgId }

end LsMessageCenter

/-- The last sequence number of every originator. -/
abbrev LsMessageHistory := SortedMap ℕ U32

/-- A message that is new is entered as well. -/
def LsMessageHistory.isNewMessage (history : LsMessageHistory) (msg : LsMessage) : Bool × LsMessageHistory :=
  match history.find msg.originNodeId with
  | some last =>
    if last < msg.sequenceNumber ∨ LS_WRAPAROUND_THRESHOLD < last - msg.sequenceNumber then
      (true, history.set msg.originNodeId msg.sequenceNumber)
    else (false, history)
  | none => (true, history.insert msg.originNodeId msg.sequenceNumber)

structure LsIdSeq where
  msgId : U32
  seq : U32
deriving DecidableEq

/-- `pending` says whether the timer is. -/
structure LsUnackPeer where
  pending : Bool
  tpmSeq : U32
  lsaMap : SortedMap ℕ LsIdSeq
deriving DecidableEq

abbrev LsRetransmissionManager := SortedMap ℕ LsUnackPeer

namespace LsRetransmissionManager

def idle : LsUnackPeer := ⟨false, LS_INVALID_MESSAGE_ID, .empty⟩

def cancelTimer (m : LsRetransmissionManager) (nbrId : ℕ) : LsRetransmissionManager :=
  match m.find nbrId with
  | none => m
  | some peer => m.set nbrId { peer with pending := false, tpmSeq := LS_INVALID_MESSAGE_ID, lsaMap := .empty }

def messageOut (m : LsRetransmissionManager) (peerId : ℕ) (msg : LsMessage) : LsRetransmissionManager :=
  let peer := (m.find peerId).getD idle
  let peer := match msg.type with
    | .tpm => { peer with tpmSeq := msg.sequenceNumber }
    | .lsa => { peer with lsaMap := peer.lsaMap.set msg.originNodeId ⟨msg.messageId, msg.sequenceNumber⟩ }
    | _ => peer
  m.set peerId { peer with pending := true }

/-- `none` is the abort of `TimerHandler::cancel` on a timer that is not pending. -/
def ackIn (m : LsRetransmissionManager) (peerId : ℕ) (msg : LsMessage) : Option LsRetransmissionManager :=
  match m.find peerId with
  | none => some m
  | some peer =>
    if peer.tpmSeq = LS_INVALID_MESSAGE_ID ∧ peer.lsaMap.entries = [] then some m
    else
      let peer := match msg.type with
        | .tpmAck => if peer.tpmSeq = msg.sequenceNumber then { peer with tpmSeq := LS_INVALID_MESSAGE_ID } else peer
        | .lsaAck =>
          match peer.lsaMap.find msg.originNodeId with
          | none => peer
          | some idSeq => if idSeq.seq = msg.sequenceNumber then { peer with lsaMap := peer.lsaMap.erase msg.originNodeId } else peer
        | _ => peer
      if peer.tpmSeq = LS_INVALID_MESSAGE_ID ∧ peer.lsaMap.entries = [] then
        if peer.pending then some (m.set peerId { peer with pending := false }) else none
      else some (m.set peerId peer)

/-- The numbers sent again when the timer of the peer expires, and the timer set once more. -/
def resendMessages (m : LsRetransmissionManager) (peerId : ℕ) : Option (LsRetransmissionManager × List U32) :=
  match m.find peerId with
  | none => none
  | some peer =>
    if peer.pending then
      some (m.set peerId { peer with pending := true },
        (if peer.tpmSeq = LS_INVALID_MESSAGE_ID then [] else [peer.tpmSeq]) ++ peer.lsaMap.entries.map fun e => e.2.msgId)
    else none

end LsRetransmissionManager

end Ns2
