import Ns2.Library.Loops
import Ns2.Routing.LsProtocol

namespace Ns2

namespace LsMessageCenter

/-- LSAs and topology messages have odd numbers and acknowledgments even ones, each that of its place. -/
structure Sorted (c : LsMessageCenter) : Prop where
  lsa : ∀ k m, c.lsa_messages.find k = some m → m.messageId = k ∧ isLSA k = true ∧ (m.type = .lsa ∨ m.type = .tpm ∧ m.sequenceNumber = k)
  other : ∀ k m, c.other_messages.find k = some m → m.messageId = k ∧ isLSA k = false ∧ (m.type = .lsaAck ∨ m.type = .tpmAck)
  lsaId : isLSA c.current_lsa_id = true
  otherId : isLSA c.current_other_id = false

variable {c c' : LsMessageCenter} {id nodeId : ℕ} {type : LsMessageType} {msg : LsMessage} {k : U32}

theorem isLSA_after (k : U32) : isLSA (after k) = isLSA k := by
  have two : ∀ k : U32, isLSA (k + 2) = isLSA k := fun k => by
    unfold isLSA
    rw [Fin.val_add]
    have small : ((2 : U32) : ℕ) = 2 := rfl
    rw [small]
    congr 1
    simp only [eq_iff_iff]
    omega
  unfold after
  split_ifs
  · rw [two, two]
  · exact two k

theorem recycle_find {storage : SortedMap U32 LsMessage} {max_size : ℕ} (found : (recycle storage max_size).find k = some msg) :
    storage.find k = some msg := by
  unfold recycle at found
  split_ifs at found
  · split at found
    · exact found
    · rw [SortedMap.find_erase] at found
      split_ifs at found
      exact found
  · exact found

theorem make_sorted (n : ℕ) : (make.setNodeNumber n).Sorted := 
  ⟨nofun, nofun, rfl, show isLSA (LS_INVALID_MESSAGE_ID + 2) = false by decide⟩

/-- What is known of a message that was just made or written. -/
def Fitting (msg : LsMessage) : Prop :=
  (msg.type = .lsa ∨ msg.type = .tpm) ∧ isLSA msg.messageId = true ∧ (msg.type = .tpm → msg.sequenceNumber = msg.messageId) ∨
    (msg.type = .lsaAck ∨ msg.type = .tpmAck) ∧ isLSA msg.messageId = false

theorem Sorted.newMessage (sorted : c.Sorted) (made : c.newMessage nodeId type = some (c', msg)) :
    c'.Sorted ∧ Fitting msg ∧ msg.type = type ∧ msg.sequenceNumber = msg.messageId := by
  unfold LsMessageCenter.newMessage at made
  dsimp only at made
  have start : (if c.max_size = 0 then { c with max_size := 300 } else c).Sorted := by
    split_ifs
    · exact ⟨sorted.lsa, sorted.other, sorted.lsaId, sorted.otherId⟩
    · exact sorted
  generalize (if c.max_size = 0 then { c with max_size := 300 } else c) = d at made start
  by_cases advert : type = .lsa ∨ type = .tpm
  · rw [if_pos advert] at made
    split_ifs at made
    cases Option.some.inj made
    refine ⟨⟨fun k m found => ?_, start.other, (isLSA_after _).trans start.lsaId, start.otherId⟩,
      Or.inl ⟨advert, start.lsaId, fun _ => rfl⟩, rfl, rfl⟩
    rw [SortedMap.find_set] at found
    split_ifs at found with own
    · cases Option.some.inj found
      exact ⟨own.symm, own ▸ start.lsaId, advert.imp_right fun tpm => ⟨tpm, own.symm⟩⟩
    · exact start.lsa k m (recycle_find found)
  · rw [if_neg advert] at made
    split_ifs at made
    cases Option.some.inj made
    have ack : type = .lsaAck ∨ type = .tpmAck := by
      cases type <;> simp_all
    refine ⟨⟨start.lsa, fun k m found => ?_, start.lsaId, (isLSA_after _).trans start.otherId⟩, Or.inr ⟨ack, start.otherId⟩, rfl, rfl⟩
    rw [SortedMap.find_set] at found
    split_ifs at found with own
    · cases Option.some.inj found
      exact ⟨own.symm, own ▸ start.otherId, ack⟩
    · exact start.other k m (recycle_find found)

theorem Sorted.write (sorted : c.Sorted) (fitting : Fitting msg) :
    (c.write msg).Sorted ∧ (c.write msg).retrieveMessagePtr msg.messageId = some msg := by
  unfold LsMessageCenter.write LsMessageCenter.retrieveMessagePtr
  rcases fitting with ⟨advert, odd, same⟩ | ⟨ack, even⟩
  · rw [if_pos advert, if_pos odd]
    refine ⟨⟨fun k m found => ?_, sorted.other, sorted.lsaId, sorted.otherId⟩, ?_⟩
    · rw [SortedMap.find_set] at found
      split_ifs at found with own
      · cases Option.some.inj found
        exact ⟨own.symm, own ▸ odd, advert.imp_right fun tpm => ⟨tpm, own ▸ same tpm⟩⟩
      · exact sorted.lsa k m found
    · rw [SortedMap.find_set, if_pos rfl]
  · have other : ¬ (msg.type = .lsa ∨ msg.type = .tpm) := by
      rcases ack with type | type <;> simp [type]
    rw [if_neg other, if_neg (by simp [even])]
    refine ⟨⟨sorted.lsa, fun k m found => ?_, sorted.lsaId, sorted.otherId⟩, ?_⟩
    · rw [SortedMap.find_set] at found
      split_ifs at found with own
      · cases Option.some.inj found
        exact ⟨own.symm, own ▸ even, ack⟩
      · exact sorted.other k m found
    · rw [SortedMap.find_set, if_pos rfl]

theorem Sorted.retrieve (sorted : c.Sorted) (found : c.retrieveMessagePtr k = some msg) : msg.messageId = k ∧ Fitting msg := by
  unfold LsMessageCenter.retrieveMessagePtr at found
  split_ifs at found with odd
  · obtain ⟨same, _, kind⟩ := sorted.lsa k msg found
    refine ⟨same, Or.inl ⟨kind.imp_right And.left, same ▸ odd, fun tpm => ?_⟩⟩
    rcases kind with lsa | ⟨_, number⟩
    · exact absurd (lsa.symm.trans tpm) nofun
    · exact number.trans same.symm
  · obtain ⟨same, even, kind⟩ := sorted.other k msg found
    exact ⟨same, Or.inr ⟨kind, same ▸ even⟩⟩

theorem Sorted.ack_place (sorted : c.Sorted) (found : c.retrieveMessagePtr k = some msg) (ack : msg.type = .lsaAck ∨ msg.type = .tpmAck) :
    c.other_messages.find k = some msg := by
  unfold LsMessageCenter.retrieveMessagePtr at found
  split_ifs at found
  · rcases (sorted.lsa k msg found).2.2 with type | ⟨type, _⟩ <;> rw [type] at ack <;> simp at ack
  · exact found

theorem Sorted.delete (sorted : c.Sorted) (k : U32) : (c.deleteMessage k).Sorted := by
  refine ⟨sorted.lsa, fun j m found => ?_, sorted.lsaId, sorted.otherId⟩
  have before : c.other_messages.find j = some m := by
    rw [LsMessageCenter.deleteMessage, SortedMap.find_erase] at found
    split_ifs at found
    exact found
  exact sorted.other j m before

end LsMessageCenter

namespace LsRetransmissionManager

variable {m m' : LsRetransmissionManager} {peerId p : ℕ} {msg : LsMessage} {type : LsMessageType} {origin : ℕ} {id : U32}

/-- An entry is there for the message. -/
def Entered (peer : LsUnackPeer) (msg : LsMessage) : Prop :=
  msg.type = .tpm ∧ peer.tpmSeq = msg.messageId ∨
    msg.type = .lsa ∧ ∃ idSeq, peer.lsaMap.find msg.originNodeId = some idSeq ∧ idSeq.msgId = msg.messageId

/-- The message is outstanding toward the peer. -/
def Waits (m : LsRetransmissionManager) (peerId : ℕ) (msg : LsMessage) : Prop := ∃ peer, m.find peerId = some peer ∧ Entered peer msg

variable {waited : LsMessage} {peer : LsUnackPeer}

theorem idle_entered (nonzero : waited.messageId ≠ LS_INVALID_MESSAGE_ID) {pending : Bool} :
    ¬ Entered ⟨pending, LS_INVALID_MESSAGE_ID, .empty⟩ waited := by
  rintro (⟨_, same⟩ | ⟨_, idSeq, inside, _⟩)
  · exact nonzero same.symm
  · exact absurd inside nofun

theorem waits_set (waits : Waits (m.set peerId peer) p waited) : p = peerId ∧ Entered peer waited ∨ m.Waits p waited := by
  obtain ⟨there, found, entered⟩ := waits
  rw [SortedMap.find_set] at found
  split_ifs at found with own
  · cases Option.some.inj found
    exact Or.inl ⟨own, entered⟩
  · exact Or.inr ⟨there, found, entered⟩

theorem cancelTimer_waits (nonzero : waited.messageId ≠ LS_INVALID_MESSAGE_ID) (waits : (m.cancelTimer peerId).Waits p waited) :
    m.Waits p waited := by
  unfold cancelTimer at waits
  rcases Option.eq_none_or_eq_some (m.find peerId) with none | ⟨old, there⟩
  · rwa [none] at waits
  · rw [there] at waits
    exact (waits_set waits).resolve_left fun own => idle_entered nonzero own.2

theorem messageOut_waits (number : msg.type = .tpm → msg.sequenceNumber = msg.messageId) (nonzero : waited.messageId ≠ LS_INVALID_MESSAGE_ID)
    (waits : (m.messageOut peerId msg).Waits p waited) : m.Waits p waited ∨ p = peerId ∧ waited.messageId = msg.messageId := by
  unfold messageOut at waits
  rcases waits_set waits with ⟨rfl, entered⟩ | before
  · have old : Entered ((m.find p).getD idle) waited → m.Waits p waited := fun old => by
      rcases Option.eq_none_or_eq_some (m.find p) with none | ⟨peer, there⟩
      · rw [none] at old
        exact absurd old (idle_entered nonzero)
      · rw [there] at old
        exact ⟨peer, there, old⟩
    rcases kind : msg.type with _ | _ | _ | _
    · rw [kind] at entered
      rcases entered with same | ⟨lsa, idSeq, inside, same⟩
      · exact Or.inl (old (Or.inl same))
      · rw [SortedMap.find_set] at inside
        split_ifs at inside with own
        · cases Option.some.inj inside
          exact Or.inr ⟨rfl, same.symm⟩
        · exact Or.inl (old (Or.inr ⟨lsa, idSeq, inside, same⟩))
    · rw [kind] at entered
      rcases entered with ⟨_, same⟩ | lsa
      · exact Or.inr ⟨rfl, same.symm.trans (number kind)⟩
      · exact Or.inl (old (Or.inr lsa))
    · rw [kind] at entered
      exact Or.inl (old entered)
    · rw [kind] at entered
      exact Or.inl (old entered)
  · exact Or.inl before

/-- What the acknowledgment leaves of the entries for the peer. -/
def acknowledge (peer : LsUnackPeer) (msg : LsMessage) : LsUnackPeer :=
  match msg.type with
  | .tpmAck => if peer.tpmSeq = msg.sequenceNumber then { peer with tpmSeq := LS_INVALID_MESSAGE_ID } else peer
  | .lsaAck =>
    match peer.lsaMap.find msg.originNodeId with
    | none => peer
    | some idSeq => if idSeq.seq = msg.sequenceNumber then { peer with lsaMap := peer.lsaMap.erase msg.originNodeId } else peer
  | _ => peer

theorem acknowledge_entered (nonzero : waited.messageId ≠ LS_INVALID_MESSAGE_ID) (entered : Entered (acknowledge peer msg) waited) :
    Entered peer waited := by
  unfold acknowledge at entered
  split at entered
  · split_ifs at entered
    · exact entered.imp_left fun same => absurd same.2.symm nonzero
    · exact entered
  · split at entered
    · exact entered
    · split_ifs at entered
      · refine entered.imp_right fun ⟨lsa, idSeq, inside, same⟩ => ⟨lsa, idSeq, ?_, same⟩
        rw [SortedMap.find_erase] at inside
        split_ifs at inside
        exact inside
      · exact entered
  · exact entered

/-- The manager after an acknowledgment: nothing but the entries of the peer, and those as `acknowledge` leaves them. -/
theorem ackIn_cases (taken : m.ackIn peerId msg = some m') : m' = m ∧ (∀ peer, m.find peerId = some peer →
      peer.tpmSeq = LS_INVALID_MESSAGE_ID ∧ peer.lsaMap.entries = []) ∨
    ∃ peer pending, m.find peerId = some peer ∧ m' = m.set peerId { acknowledge peer msg with pending } := by
  unfold ackIn at taken
  rcases Option.eq_none_or_eq_some (m.find peerId) with none | ⟨peer, there⟩
  · rw [none] at taken
    exact Or.inl ⟨(Option.some.inj taken).symm, fun peer found => absurd (none.symm.trans found) nofun⟩
  · rw [there] at taken
    dsimp only at taken
    by_cases empty : peer.tpmSeq = LS_INVALID_MESSAGE_ID ∧ peer.lsaMap.entries = []
    · rw [if_pos empty] at taken
      refine Or.inl ⟨(Option.some.inj taken).symm, fun other found => ?_⟩
      cases Option.some.inj (there.symm.trans found)
      exact empty
    · rw [if_neg empty] at taken
      refine Or.inr ⟨peer, ?_⟩
      generalize gone : acknowledge peer msg = after
      have whole : (if after.tpmSeq = LS_INVALID_MESSAGE_ID ∧ after.lsaMap.entries = [] then
          if after.pending then some (m.set peerId { after with pending := false }) else none
        else some (m.set peerId after)) = some m' := by
        rw [← gone]
        exact taken
      split_ifs at whole
      · exact ⟨false, there, (Option.some.inj whole).symm⟩
      · exact ⟨after.pending, there, (Option.some.inj whole).symm⟩

theorem ackIn_waits (nonzero : waited.messageId ≠ LS_INVALID_MESSAGE_ID) (taken : m.ackIn peerId msg = some m') (waits : m'.Waits p waited) :
    m.Waits p waited := by
  rcases ackIn_cases taken with ⟨rfl, _⟩ | ⟨peer, pending, found, rfl⟩
  · exact waits
  · rcases waits_set waits with ⟨rfl, entered⟩ | before
    · exact ⟨peer, found, acknowledge_entered nonzero entered⟩
    · exact before

/-- An acknowledgment takes the entry out whose sequence number it has. -/
theorem ackIn_removes (nonzero : waited.messageId ≠ LS_INVALID_MESSAGE_ID) (taken : m.ackIn p msg = some m')
    (tpm : waited.type = .tpm → msg.type = .tpmAck ∧ msg.sequenceNumber = waited.messageId)
    (lsa : waited.type = .lsa → msg.type = .lsaAck ∧ msg.originNodeId = waited.originNodeId ∧ ∀ peer idSeq, m.find p = some peer →
      peer.lsaMap.find waited.originNodeId = some idSeq → idSeq.msgId = waited.messageId → idSeq.seq = msg.sequenceNumber) :
    ¬ m'.Waits p waited := by
  intro waits
  rcases ackIn_cases taken with ⟨rfl, empty⟩ | ⟨peer, pending, found, rfl⟩
  · obtain ⟨peer, found, ⟨_, same⟩ | ⟨_, idSeq, inside, _⟩⟩ := waits
    · exact nonzero (same.symm.trans (empty peer found).1)
    · rw [SortedMap.entries_nil.mp (empty peer found).2] at inside
      exact absurd inside nofun
  · have entered : Entered (acknowledge peer msg) waited := by
      obtain ⟨there, now, entered⟩ := waits
      rw [SortedMap.find_set, if_pos rfl] at now
      cases Option.some.inj now
      exact entered
    unfold acknowledge at entered
    rcases entered with ⟨kind, same⟩ | ⟨kind, idSeq, inside, same⟩
    · obtain ⟨type, number⟩ := tpm kind
      rw [type] at same
      dsimp only at same
      split_ifs at same with hit
      · exact nonzero same.symm
      · exact hit (same.trans number.symm)
    · obtain ⟨type, origin, numbers⟩ := lsa kind
      rw [type, origin] at inside
      dsimp only at inside
      rcases Option.eq_none_or_eq_some (peer.lsaMap.find waited.originNodeId) with none | ⟨old, there⟩
      · rw [none] at inside
        exact absurd (none.symm.trans inside) nofun
      · rw [there] at inside
        dsimp only at inside
        split_ifs at inside with hit
        · rw [SortedMap.find_erase, if_pos rfl] at inside
          exact absurd inside nofun
        · cases Option.some.inj (there.symm.trans inside)
          exact hit (numbers peer _ found there same)

end LsRetransmissionManager

namespace LsLocal

/-- What every event keeps. A message that is waited for anew has been sent. -/
structure Keeps (l l' : LsLocal) : Prop where
  self : l'.router.myNodeId = l.router.myNodeId
  peers : l'.router.peerIdList = l.router.peerIdList
  sorted : l'.center.Sorted
  sends : ∀ send ∈ l.sends, send ∈ l'.sends
  inside : ∀ send ∈ l'.sends, send ∈ l.sends ∨ send.1 ∈ l.router.peerIdList
  waits : ∀ p msg, msg.messageId ≠ LS_INVALID_MESSAGE_ID → p ∈ l.router.peerIdList → l'.router.ackManager.Waits p msg →
    l.router.ackManager.Waits p msg ∨ (p, msg.messageId) ∈ l'.sends

variable {l l' mid : LsLocal} {peerId senderId nbrId origin : ℕ} {msg : LsMessage} {type : LsMessageType} {seq : U32}

theorem Keeps.trans (first : Keeps l mid) (second : Keeps mid l') : Keeps l l' where
  self := second.self.trans first.self
  peers := second.peers.trans first.peers
  sorted := second.sorted
  sends send member := second.sends send (first.sends send member)
  inside send member := (second.inside send member).elim (first.inside send) fun inside => Or.inr (first.peers ▸ inside)
  waits p msg nonzero inside waits := by
    rcases second.waits p msg nonzero (first.peers.symm ▸ inside) waits with before | sent
    · exact (first.waits p msg nonzero inside before).imp_right (second.sends _)
    · exact Or.inr sent

/-- Steps that leave the manager and the messages sent. -/
theorem Keeps.of_same (self : l'.router.myNodeId = l.router.myNodeId) (peers : l'.router.peerIdList = l.router.peerIdList)
    (manager : l'.router.ackManager = l.router.ackManager) (sorted : l'.center.Sorted) (sends : l'.sends = l.sends) : Keeps l l' where
  self := self
  peers := peers
  sorted := sorted
  sends send member := sends ▸ member
  inside send member := Or.inl (sends ▸ member)
  waits p msg _ _ waits := Or.inl (manager ▸ waits)

theorem keeps_self (sorted : l.center.Sorted) : Keeps l l := Keeps.of_same rfl rfl rfl sorted rfl

theorem sendMessage_keeps (sorted : l.center.Sorted) (destId : ℕ) (msgId : U32) : Keeps l (l.sendMessage destId msgId) := by
  unfold sendMessage
  split_ifs with peer
  · refine ⟨rfl, rfl, sorted, fun send member => List.mem_append_left _ member, fun send member => ?_, fun _ _ _ _ waits => Or.inl waits⟩
    rcases List.mem_append.mp member with old | new
    · exact Or.inl old
    · rw [List.mem_singleton.mp new]
      exact Or.inr peer
  · exact keeps_self sorted

theorem mem_sendMessage (l : LsLocal) {destId : ℕ} (msgId : U32) (peer : destId ∈ l.router.peerIdList) :
    (destId, msgId) ∈ (l.sendMessage destId msgId).sends := by
  rw [sendMessage, if_pos peer]
  exact List.mem_append_right _ (List.mem_singleton_self _)

/-- A message that goes out is entered and sent. -/
theorem out_keeps (sorted : l.center.Sorted) (number : msg.type = .tpm → msg.sequenceNumber = msg.messageId) (peerId : ℕ) :
    Keeps l ((l.messageOut peerId msg).sendMessage peerId msg.messageId) := by
  have sent := sendMessage_keeps (l := l.messageOut peerId msg) sorted peerId msg.messageId
  refine ⟨sent.self, sent.peers, sent.sorted, sent.sends, sent.inside, fun p waited nonzero inside waits => ?_⟩
  rcases sent.waits p waited nonzero inside waits with before | new
  · rcases LsRetransmissionManager.messageOut_waits number nonzero before with old | ⟨rfl, same⟩
    · exact Or.inl old
    · rw [same]
      exact Or.inr (mem_sendMessage _ _ inside)
  · exact Or.inr new

theorem send_out (l : LsLocal) (peerId : ℕ) (msg : LsMessage) :
    (l.sendMessage peerId msg.messageId).messageOut peerId msg = (l.messageOut peerId msg).sendMessage peerId msg.messageId := by
  unfold sendMessage messageOut
  dsimp only
  split_ifs <;> rfl

/-- The number is that of an acknowledgment with the origin and the sequence number. -/
def AckAt (center : LsMessageCenter) (id : U32) (type : LsMessageType) (origin : ℕ) (seq : U32) : Prop :=
  ∃ a, center.other_messages.find id = some a ∧ a.type = type ∧ a.originNodeId = origin ∧ a.sequenceNumber = seq

theorem sendAck_keeps (sorted : l.center.Sorted) (ack : type = .lsaAck ∨ type = .tpmAck) (sent : l.sendAck nbrId type origin seq = some l') :
    Keeps l l' ∧ l'.router = l.router ∧
      ∀ send ∈ l'.sends, send ∈ l.sends ∨ send.1 = nbrId ∧ AckAt l'.center send.2 type origin seq := by
  obtain ⟨⟨center, made⟩, taken, rest⟩ := Option.bind_eq_some_iff.mp sent
  cases Option.some.inj rest
  dsimp only at *
  obtain ⟨next, fitting, kind, _⟩ := sorted.newMessage taken
  have even : LsMessageCenter.isLSA made.messageId = false := by
    rcases fitting with ⟨lsa, _⟩ | ⟨_, even⟩
    · rw [kind] at lsa
      rcases ack with rfl | rfl <;> simp at lsa
    · exact even
  let msg : LsMessage := { made with originNodeId := origin, sequenceNumber := seq }
  have written : LsMessageCenter.Fitting msg := Or.inr ⟨kind ▸ ack, even⟩
  obtain ⟨sorted', there⟩ := next.write written
  rw [LsMessageCenter.retrieveMessagePtr, if_neg (by rw [show msg.messageId = made.messageId from rfl, even]; exact Bool.false_ne_true)] at there
  let mid : LsLocal := { l with center := center.write msg }
  have keeps : Keeps l mid := Keeps.of_same rfl rfl rfl sorted' rfl
  refine ⟨keeps.trans (sendMessage_keeps sorted' nbrId _), ?_, ?_⟩
  · unfold sendMessage
    split_ifs <;> rfl
  · intro send member
    unfold sendMessage at member ⊢
    split_ifs at member ⊢ with peer
    · rcases List.mem_append.mp member with old | new
      · exact Or.inl old
      · rw [List.mem_singleton.mp new]
        exact Or.inr ⟨rfl, msg, there, kind, rfl, rfl⟩
    · exact Or.inl member

theorem forward_keeps (sorted : l.center.Sorted) (number : msg.type = .tpm → msg.sequenceNumber = msg.messageId) :
    Keeps l (forward senderId msg l peerId) := by
  unfold forward
  split_ifs
  · exact keeps_self sorted
  · exact out_keeps sorted number peerId
  · exact keeps_self sorted

theorem forward_sends {send : ℕ × U32} (member : send ∈ (forward senderId msg l peerId).sends) : send ∈ l.sends ∨ send.2 = msg.messageId := by
  unfold forward at member
  split_ifs at member
  · exact Or.inl member
  · unfold sendMessage messageOut at member
    dsimp only at member
    split_ifs at member
    · rcases List.mem_append.mp member with old | new
      · exact Or.inl old
      · exact Or.inr (congrArg Prod.snd (List.mem_singleton.mp new))
    · exact Or.inl member
  · exact Or.inl member

theorem forward_center : (forward senderId msg l peerId).center = l.center := by
  unfold forward sendMessage messageOut
  split_ifs <;> rfl

theorem acceptLSA_keeps (sorted : l.center.Sorted) (number : msg.type = .tpm → msg.sequenceNumber = msg.messageId) :
    Keeps l (l.acceptLSA senderId msg) ∧ (l.acceptLSA senderId msg).center = l.center ∧
      ∀ send ∈ (l.acceptLSA senderId msg).sends, send ∈ l.sends ∨ send.2 = msg.messageId := by
  let mid := l.router.peerIdList.foldl (forward senderId msg) l
  have keeps : Keeps l mid := Sweep.foldl_kept (P := Keeps l) (fun t peerId _ before => before.trans (forward_keeps before.sorted number))
    (keeps_self sorted)
  have center : mid.center = l.center := Sweep.foldl_kept (P := fun t : LsLocal => t.center = l.center)
    (fun t peerId _ same => forward_center.trans same) rfl
  have sends : ∀ send ∈ mid.sends, send ∈ l.sends ∨ send.2 = msg.messageId :=
    Sweep.foldl_kept (P := fun t : LsLocal => ∀ send ∈ t.sends, send ∈ l.sends ∨ send.2 = msg.messageId)
      (fun t peerId _ before send member => (forward_sends member).elim (before send) Or.inr) fun send member => Or.inl member
  have frame : ∃ db, l.acceptLSA senderId msg = { mid with router := { mid.router with linkStateDatabase := db } } := by
    unfold acceptLSA
    dsimp only
    split <;> exact ⟨_, rfl⟩
  obtain ⟨db, frame⟩ := frame
  rw [frame]
  exact ⟨keeps.trans (Keeps.of_same rfl rfl rfl keeps.sorted rfl), center, sends⟩

theorem receiveLSA_keeps (sorted : l.center.Sorted) (lsa : msg.type = .lsa) (received : l.receiveLSA senderId msg = some l') :
    Keeps l l' ∧ ∀ send ∈ l'.sends, send ∈ l.sends ∨ send.2 = msg.messageId ∨
      send.1 = senderId ∧ AckAt l'.center send.2 .lsaAck msg.originNodeId msg.messageId := by
  have number : msg.type = .tpm → msg.sequenceNumber = msg.messageId := fun tpm => absurd (lsa.symm.trans tpm) nofun
  obtain ⟨mid, acked, rest⟩ := Option.bind_eq_some_iff.mp received
  obtain ⟨keeps, _, sends⟩ := sendAck_keeps sorted (Or.inl rfl) acked
  have stays : ∀ send ∈ mid.sends, send ∈ l.sends ∨ send.2 = msg.messageId ∨
      send.1 = senderId ∧ AckAt mid.center send.2 .lsaAck msg.originNodeId msg.messageId := fun send member =>
    (sends send member).imp_right Or.inr
  dsimp only at rest
  split_ifs at rest with own new
  · cases Option.some.inj rest
    exact ⟨keeps, stays⟩
  · cases Option.some.inj rest
    let entered : LsLocal := { mid with router := { mid.router with lsaHistory := (mid.router.lsaHistory.isNewMessage msg).2 } }
    have enters : Keeps mid entered := Keeps.of_same rfl rfl rfl keeps.sorted rfl
    obtain ⟨accepts, center, forwards⟩ : Keeps entered (entered.acceptLSA senderId msg) ∧ _ := acceptLSA_keeps enters.sorted number
    refine ⟨(keeps.trans enters).trans accepts, ?_⟩
    intro send member
    rw [show (entered.acceptLSA senderId msg).center = mid.center from center]
    exact (forwards send member).elim (stays send) fun same => Or.inr (Or.inl same)
  · cases Option.some.inj rest
    exact ⟨keeps, stays⟩

/-- Nothing has been sent, and no acknowledgment made. -/
def Quiet (l l' : LsLocal) : Prop := l'.sends = l.sends ∧ l'.center.other_messages = l.center.other_messages

theorem Quiet.trans (first : Quiet l mid) (second : Quiet mid l') : Quiet l l' := ⟨second.1.trans first.1, second.2.trans first.2⟩

/-- A new LSA or topology message with its content. -/
theorem advert_sorted {c center : LsMessageCenter} {made : LsMessage} (msg : LsMessage) (sorted : c.Sorted) (advert : type = .lsa ∨ type = .tpm)
    (taken : c.newMessage origin type = some (center, made)) (id : msg.messageId = made.messageId) (kind : msg.type = type)
    (number : type = .tpm → msg.sequenceNumber = made.sequenceNumber) :
    (center.write msg).Sorted ∧ (center.write msg).other_messages = c.other_messages ∧ (msg.type = .tpm → msg.sequenceNumber = msg.messageId) := by
  obtain ⟨next, fitting, madeKind, same⟩ := sorted.newMessage taken
  have numbers : msg.type = .tpm → msg.sequenceNumber = msg.messageId := by
    intro tpm
    rw [number (kind.symm.trans tpm), same, id]
  have odd : LsMessageCenter.isLSA made.messageId = true := by
    rcases fitting with ⟨_, odd, _⟩ | ⟨ack, _⟩
    · exact odd
    · rw [madeKind] at ack
      rcases advert with rfl | rfl <;> simp at ack
  have others : center.other_messages = c.other_messages := by
    unfold LsMessageCenter.newMessage at taken
    dsimp only at taken
    rw [if_pos advert] at taken
    split_ifs at taken <;> cases Option.some.inj taken <;> rfl
  refine ⟨(next.write (Or.inl ⟨kind ▸ advert, id ▸ odd, numbers⟩)).1, ?_, numbers⟩
  rw [LsMessageCenter.write, if_pos (kind ▸ advert)]
  exact others

theorem bufferedSend_keeps (sorted : l.center.Sorted) (peerId : ℕ) (msg : LsMessage) : Keeps l (l.bufferedSend peerId msg) :=
  Keeps.of_same rfl rfl rfl sorted rfl

theorem regenAndSend_keeps {lsl : List LsLinkState} (sorted : l.center.Sorted) (sent : l.regenAndSend senderId origin lsl = some l') :
    Keeps l l' ∧ Quiet l l' := by
  unfold regenAndSend at sent
  split at sent
  · exact absurd sent nofun
  · rename_i first rest
    obtain ⟨⟨center, made⟩, taken, done⟩ := Option.bind_eq_some_iff.mp sent
    cases Option.some.inj done
    dsimp only at *
    let msg : LsMessage := { made with sequenceNumber := first.sequenceNumber, originNodeId := origin }
    obtain ⟨sorted', others, _⟩ := advert_sorted msg sorted (Or.inl rfl) taken rfl (sorted.newMessage taken).2.2.1 nofun
    let mid : LsLocal := { l with center := center.write msg, made := Function.update l.made made.messageId (first :: rest) }
    have keeps : Keeps l mid := Keeps.of_same rfl rfl rfl sorted' rfl
    refine Sweep.foldl_kept (P := fun t => Keeps l t ∧ Quiet l t) (fun t peerId _ before => ?_) ⟨keeps, rfl, others⟩
    split_ifs
    · exact before
    · exact ⟨before.1.trans (bufferedSend_keeps before.1.sorted peerId msg), before.2⟩

theorem receiveRecord_keeps {record : ℕ × List LsLinkState} (sorted : l.center.Sorted) (received : l.receiveRecord senderId record = some l') :
    Keeps l l' ∧ Quiet l l' := by
  unfold receiveRecord at received
  split_ifs at received
  · cases Option.some.inj received
    exact ⟨keeps_self sorted, rfl, rfl⟩
  · obtain ⟨new, _, rest⟩ := Option.bind_eq_some_iff.mp received
    split_ifs at rest
    · have frame : Keeps l { l with router := { l.router with linkStateDatabase := l.router.linkStateDatabase.set record.1 record.2 } } :=
        Keeps.of_same rfl rfl rfl sorted rfl
      obtain ⟨keeps, quiet⟩ := regenAndSend_keeps frame.sorted rest
      exact ⟨frame.trans keeps, quiet⟩
    · cases Option.some.inj rest
      exact ⟨keeps_self sorted, rfl, rfl⟩

theorem receiveTopo_keeps {topo : ℕ → LsTopoMap} (sorted : l.center.Sorted) (received : l.receiveTopo senderId msg topo = some l') :
    Keeps l l' ∧ ∀ send ∈ l'.sends, send ∈ l.sends ∨
      send.1 = senderId ∧ AckAt l'.center send.2 .tpmAck senderId msg.sequenceNumber := by
  obtain ⟨mid, acked, rest⟩ := Option.bind_eq_some_iff.mp received
  obtain ⟨keeps, _, sends⟩ := sendAck_keeps sorted (Or.inr rfl) acked
  dsimp only at rest
  split_ifs at rest with new
  · let entered : LsLocal := { mid with router := { mid.router with tpmHistory := (mid.router.tpmHistory.isNewMessage msg).2 } }
    have enters : Keeps mid entered := Keeps.of_same rfl rfl rfl keeps.sorted rfl
    have later : Keeps entered l' ∧ Quiet entered l' := by
      split at rest
      · exact Sweep.foldlM_kept (P := fun t => Keeps entered t ∧ Quiet entered t) (fun t t' record _ before step => by
          obtain ⟨next, quiet⟩ := receiveRecord_keeps before.1.sorted step
          exact ⟨before.1.trans next, before.2.trans quiet⟩) ⟨keeps_self enters.sorted, rfl, rfl⟩ rest
      · cases Option.some.inj rest
        exact ⟨keeps_self enters.sorted, rfl, rfl⟩
    obtain ⟨next, quiet, others⟩ := later
    refine ⟨(keeps.trans enters).trans next, ?_⟩
    intro send member
    rw [quiet] at member
    rw [AckAt, others]
    exact sends send member
  · cases Option.some.inj rest
    exact ⟨keeps, sends⟩

theorem receiveAck_keeps (sorted : l.center.Sorted) (received : l.receiveAck senderId msg = some l') : Keeps l l' ∧ l'.sends = l.sends := by
  obtain ⟨manager, taken, rest⟩ := Option.bind_eq_some_iff.mp received
  cases Option.some.inj rest
  refine ⟨⟨rfl, rfl, sorted.delete _, fun send member => member, fun send member => Or.inl member, ?_⟩, rfl⟩
  intro p waited nonzero _ waits
  exact Or.inl (LsRetransmissionManager.ackIn_waits nonzero taken waits)

theorem sendLinkStates_keeps {buffer : Bool} (sorted : l.center.Sorted) (sent : l.sendLinkStates buffer = some l') : Keeps l l' := by
  unfold sendLinkStates at sent
  by_cases alone : l.router.peerIdList = []
  · rw [if_pos alone] at sent
    cases Option.some.inj sent
    exact keeps_self sorted
  · rw [if_neg alone] at sent
    split at sent
    · cases Option.some.inj sent
      exact keeps_self sorted
    · cases Option.some.inj sent
      exact keeps_self sorted
    · rename_i myLSL _ _
      obtain ⟨⟨center, made⟩, taken, done⟩ := Option.bind_eq_some_iff.mp sent
      cases Option.some.inj done
      dsimp only at *
      obtain ⟨sorted', _, number⟩ := advert_sorted
        { made with content := .lsl (myLSL.map fun link => { link with sequenceNumber := made.sequenceNumber }) }
        sorted (Or.inl rfl) taken rfl (sorted.newMessage taken).2.2.1 fun _ => rfl
      refine Sweep.foldl_kept (P := Keeps l) (fun t peerId _ before => ?_) (Keeps.of_same rfl rfl rfl sorted' rfl)
      split_ifs
      · exact before.trans (bufferedSend_keeps before.sorted peerId _)
      · rw [send_out t peerId { made with content := .lsl (myLSL.map fun link => { link with sequenceNumber := made.sequenceNumber }) }]
        exact before.trans (out_keeps before.sorted number peerId)
      · exact before

theorem sendTopo_keeps (sorted : l.center.Sorted) (sent : l.sendTopo peerId = some l') : Keeps l l' := by
  obtain ⟨⟨center, made⟩, taken, done⟩ := Option.bind_eq_some_iff.mp sent
  cases Option.some.inj done
  obtain ⟨sorted', _⟩ := advert_sorted { made with content := .topo l.router.myNodeId }
    sorted (Or.inr rfl) taken rfl (sorted.newMessage taken).2.2.1 fun _ => rfl
  exact Keeps.of_same rfl rfl rfl sorted' rfl

theorem compareLinks_keeps {news olds : List LsLinkState} (sorted : l.center.Sorted) (compared : l.compareLinks news olds = some l') :
    Keeps l l' := by
  induction news generalizing l olds with
  | nil =>
    cases Option.some.inj compared
    exact keeps_self sorted
  | cons new news ih =>
    cases olds with
    | nil => exact absurd compared nofun
    | cons old olds =>
      unfold compareLinks at compared
      by_cases aligned : new.neighborId ≠ old.neighborId
      · rw [if_pos aligned] at compared
        exact absurd compared nofun
      · rw [if_neg aligned] at compared
        dsimp only at compared
        let mid : LsLocal := if new.status = .down then
          { l with router := { l.router with ackManager := l.router.ackManager.cancelTimer new.neighborId } } else l
        have cancels : Keeps l mid := by
          unfold mid
          split_ifs
          · refine ⟨rfl, rfl, sorted, fun send member => member, fun send member => Or.inl member, ?_⟩
            intro p waited nonzero _ waits
            exact Or.inl (LsRetransmissionManager.cancelTimer_waits nonzero waits)
          · exact keeps_self sorted
        by_cases same : new.status = .down ∨ old.status = .up
        · rw [if_pos same] at compared
          exact cancels.trans (ih cancels.sorted compared)
        · rw [if_neg same] at compared
          obtain ⟨next, topo, rest⟩ := Option.bind_eq_some_iff.mp compared
          have sends := cancels.trans (sendTopo_keeps cancels.sorted topo)
          exact sends.trans (ih sends.sorted rest)

theorem linkStateChanged_keeps (sorted : l.center.Sorted) (changed : l.linkStateChanged = some l') : Keeps l l' := by
  obtain ⟨oldlsl, _, rest⟩ := Option.bind_eq_some_iff.mp changed
  dsimp only at rest
  let mid : LsLocal := { l with router := { l.router with
    linkStateDatabase := (l.router.linkStateDatabase.update l.router.myNodeId l.router.myNodeId l.router.linkStateList).1 } }
  have updates : Keeps l mid := Keeps.of_same rfl rfl rfl sorted rfl
  by_cases new : (l.router.linkStateDatabase.update l.router.myNodeId l.router.myNodeId l.router.linkStateList).2
  · rw [if_pos new] at rest
    obtain ⟨next, sent, compared⟩ := Option.bind_eq_some_iff.mp rest
    have sends := updates.trans (sendLinkStates_keeps updates.sorted sent)
    exact sends.trans (compareLinks_keeps sends.sorted compared)
  · rw [if_neg new] at rest
    exact updates.trans (compareLinks_keeps updates.sorted rest)

theorem sendBufferedMessages_keeps (sorted : l.center.Sorted) (sent : l.sendBufferedMessages = some l') : Keeps l l' := by
  obtain ⟨mid, flushed, rest⟩ := Option.bind_eq_some_iff.mp sent
  cases Option.some.inj rest
  have keeps : Keeps l mid := by
    refine Sweep.foldlM_kept (P := Keeps l) (fun t t' entry _ before step => ?_) (keeps_self sorted) flushed
    obtain ⟨msg, found, done⟩ := Option.bind_eq_some_iff.mp step
    cases Option.some.inj done
    obtain ⟨same, fitting⟩ := before.sorted.retrieve found
    have number : msg.type = .tpm → msg.sequenceNumber = msg.messageId := fun tpm => by
      rcases fitting with ⟨_, _, number⟩ | ⟨ack, _⟩
      · exact number tpm
      · rw [tpm] at ack
        simp at ack
    rw [← same]
    exact before.trans (out_keeps before.sorted number entry.1)
  exact keeps.trans (Keeps.of_same rfl rfl rfl keeps.sorted rfl)

theorem resendMessages_keeps (sorted : l.center.Sorted) (sent : l.resendMessages peerId = some l') :
    Keeps l l' ∧ ∀ p msg, l'.router.ackManager.Waits p msg → l.router.ackManager.Waits p msg := by
  obtain ⟨⟨manager, msgIds⟩, taken, rest⟩ := Option.bind_eq_some_iff.mp sent
  cases Option.some.inj rest
  have stays : ∀ p msg, manager.Waits p msg → l.router.ackManager.Waits p msg := by
    intro p msg waits
    unfold LsRetransmissionManager.resendMessages at taken
    rcases Option.eq_none_or_eq_some (l.router.ackManager.find peerId) with none | ⟨peer, found⟩
    · rw [none] at taken
      exact absurd taken nofun
    · rw [found] at taken
      dsimp only at taken
      by_cases ready : peer.pending = true
      · rw [if_pos ready] at taken
        obtain ⟨rfl, _⟩ := Prod.mk.inj (Option.some.inj taken)
        rcases LsRetransmissionManager.waits_set waits with ⟨rfl, entered⟩ | before
        · exact ⟨peer, found, entered⟩
        · exact before
      · rw [if_neg ready] at taken
        exact absurd taken nofun
  let mid : LsLocal := { l with router := { l.router with ackManager := manager } }
  have sets : Keeps l mid := ⟨rfl, rfl, sorted, fun send member => member, fun send member => Or.inl member,
    fun p msg _ _ waits => Or.inl (stays p msg waits)⟩
  obtain ⟨keeps, same⟩ := Sweep.foldl_kept (l := msgIds) (f := fun t msgId => t.sendMessage peerId msgId) (s := mid)
    (P := fun t => Keeps l t ∧ t.router = mid.router) (fun t msgId _ before =>
      ⟨before.1.trans (sendMessage_keeps before.1.sorted peerId msgId), by
        rw [← before.2]
        unfold sendMessage
        split_ifs <;> rfl⟩) ⟨sets, rfl⟩
  exact ⟨keeps, fun p msg waits => stays p msg (by rwa [same] at waits)⟩

end LsLocal

namespace LsSystem

/-- The nodes as `init` leaves them. None is a peer of number `LS_INVALID_NODE_ID`. -/
structure Started (s : LsSystem) : Prop where
  routers : ∀ n, ∃ peers links delays, s.nodes n = LsRouter.init n peers links delays ∧ LS_INVALID_NODE_ID ∉ peers
  center : ∃ size, s.center = LsMessageCenter.make.setNodeNumber size
  packets : s.packets = []
  acked : s.acked = []

/-- An acknowledgment says what it acknowledges. -/
def Answers (a msg : LsMessage) : Prop :=
  msg.type = .lsa ∧ a.type = .lsaAck ∧ a.originNodeId = msg.originNodeId ∧ a.sequenceNumber = msg.messageId ∨
    msg.type = .tpm ∧ a.type = .tpmAck ∧ a.sequenceNumber = msg.messageId

/-- The two ends of every packet are neighbours, and no acknowledged message is waited for. -/
structure Tracked (s : LsSystem) : Prop where
  sorted : s.center.Sorted
  valid : ∀ n, LS_INVALID_NODE_ID ∉ (s.nodes n).peerIdList
  forth : ∀ p ∈ s.packets, p.dst ∈ (s.nodes p.src).peerIdList
  back : ∀ p ∈ s.packets, ∀ msg, p.acks = some msg → p.src ∈ (s.nodes p.dst).peerIdList ∧
    msg.messageId ≠ LS_INVALID_MESSAGE_ID ∧ ∃ a, p.sent = some a ∧ Answers a msg
  peers : ∀ a ∈ s.acked, a.peer ∈ (s.nodes a.node).peerIdList ∧ a.msg.messageId ≠ LS_INVALID_MESSAGE_ID
  settled : ∀ a ∈ s.acked, ¬ (s.nodes a.node).ackManager.Waits a.peer a.msg

/-- The center still has an acknowledgment that is delivered, and an entry for the LSA that it
acknowledges has the number of the message as its sequence number. -/
def Admits (s : LsSystem) : LsEvent → Prop
  | .deliver i => ∀ p msg, s.packets[i]? = some p → p.acks = some msg → s.center.retrieveMessagePtr p.msgId = p.sent ∧
      (msg.type = .lsa → ∀ peer idSeq, (s.nodes p.dst).ackManager.find p.src = some peer →
        peer.lsaMap.find msg.originNodeId = some idSeq → idSeq.msgId = msg.messageId → idSeq.seq = idSeq.msgId)
  | _ => True

instance (s : LsSystem) : ∀ e, Decidable (s.Admits e)
  | .deliver i => decidable_of_iff (∀ p ∈ s.packets[i]?, ∀ msg ∈ p.acks, s.center.retrieveMessagePtr p.msgId = p.sent ∧
      (msg.type = .lsa → ∀ peer ∈ (s.nodes p.dst).ackManager.find p.src, ∀ idSeq ∈ peer.lsaMap.find msg.originNodeId,
        idSeq.msgId = msg.messageId → idSeq.seq = idSeq.msgId))
    ⟨fun all p msg found acks => ⟨(all p found msg acks).1, fun lsa peer idSeq there inside => (all p found msg acks).2 lsa peer there idSeq inside⟩,
      fun all p found msg acks => ⟨(all p msg found acks).1, fun lsa peer there idSeq inside => (all p msg found acks).2 lsa peer idSeq there inside⟩⟩
  | .intfChanged .. => isTrue trivial
  | .sendUpdates _ => isTrue trivial
  | .sendBufferedMessages _ => isTrue trivial
  | .lose _ => isTrue trivial
  | .timeout .. => isTrue trivial

variable {s t : LsSystem} {node : ℕ} {l : LsLocal} {about : Option LsMessage} {e : LsEvent}

theorem Started.tracked (started : s.Started) : s.Tracked := by
  obtain ⟨size, center⟩ := started.center
  refine ⟨center ▸ LsMessageCenter.make_sorted size, fun n => ?_, ?_, ?_, ?_, ?_⟩
  · obtain ⟨peers, links, delays, router, valid⟩ := started.routers n
    rw [router]
    exact valid
  · rw [started.packets]
    nofun
  · rw [started.packets]
    nofun
  · rw [started.acked]
    nofun
  · rw [started.acked]
    nofun

/-- An event at a node that sends no acknowledgments, but for those of `answers`. -/
theorem Tracked.leave (tracked : s.Tracked) (keeps : (s.enter node).Keeps l)
    (answers : ∀ send ∈ l.sends, ∀ a msg, l.center.retrieveMessagePtr send.2 = some a → a.type = .lsaAck ∨ a.type = .tpmAck →
      about = some msg → node ∈ (s.nodes send.1).peerIdList ∧ msg.messageId ≠ LS_INVALID_MESSAGE_ID ∧ Answers a msg)
    (settled : ∀ a ∈ s.acked, a.node = node → ¬ l.router.ackManager.Waits a.peer a.msg) : (s.leave node about l).Tracked := by
  have peers : ∀ n, ((s.leave node about l).nodes n).peerIdList = (s.nodes n).peerIdList := by
    intro n
    by_cases own : n = node
    · rw [own]
      exact (congrArg LsRouter.peerIdList (Function.update_self ..)).trans keeps.peers
    · exact congrArg LsRouter.peerIdList (Function.update_of_ne own ..)
  refine ⟨keeps.sorted, fun n => ?_, ?_, ?_, ?_, ?_⟩
  · rw [peers]
    exact tracked.valid n
  · intro p member
    rw [peers]
    rcases List.mem_append.mp member with old | new
    · exact tracked.forth p old
    · obtain ⟨send, inside, rfl⟩ := List.mem_map.mp new
      exact (keeps.inside send inside).resolve_left List.not_mem_nil
  · intro p member msg acks
    rw [peers]
    rcases List.mem_append.mp member with old | new
    · exact tracked.back p old msg acks
    · obtain ⟨send, inside, rfl⟩ := List.mem_map.mp new
      unfold LsPacket.acks at acks
      dsimp only at acks ⊢
      rcases Option.eq_none_or_eq_some (l.center.retrieveMessagePtr send.2) with none | ⟨a, found⟩
      · rw [none] at acks
        exact absurd acks nofun
      · rw [found] at acks
        dsimp only at acks
        split_ifs at acks with kind
        obtain ⟨peer, nonzero, answer⟩ := answers send inside a msg found kind acks
        exact ⟨peer, nonzero, a, found, answer⟩
  · intro a member
    rw [peers]
    exact tracked.peers a member
  · intro a member
    by_cases own : a.node = node
    · rw [own]
      rw [show ((s.leave node about l).nodes node) = l.router from Function.update_self ..]
      exact settled a member own
    · rw [show ((s.leave node about l).nodes a.node) = s.nodes a.node from Function.update_of_ne own ..]
      exact tracked.settled a member

theorem Tracked.renew (tracked : s.Tracked) (node : ℕ) (l : LsLocal) : (s.renew node l).Tracked :=
  ⟨tracked.sorted, tracked.valid, tracked.forth, tracked.back, fun a member => tracked.peers a (List.mem_of_mem_filter member),
    fun a member => tracked.settled a (List.mem_of_mem_filter member)⟩

/-- What the node waits for anew it has sent, and so it is no longer acknowledged. -/
theorem Tracked.renewed (tracked : s.Tracked) (keeps : (s.enter node).Keeps l) (a : LsAcked) (member : a ∈ (s.renew node l).acked)
    (own : a.node = node) : ¬ l.router.ackManager.Waits a.peer a.msg := by
  intro waits
  obtain ⟨old, unsent⟩ := List.mem_filter.mp member
  obtain ⟨peer, nonzero⟩ := tracked.peers a old
  rw [own] at peer
  rcases keeps.waits a.peer a.msg nonzero peer waits with before | sent
  · exact tracked.settled a old (own ▸ before)
  · simp [own, sent] at unsent

theorem Tracked.lose (tracked : s.Tracked) (i : ℕ) : Tracked { s with packets := s.packets.eraseIdx i } :=
  ⟨tracked.sorted, tracked.valid, fun p member => tracked.forth p (List.mem_of_mem_eraseIdx member),
    fun p member => tracked.back p (List.mem_of_mem_eraseIdx member), tracked.peers, tracked.settled⟩

theorem receiveMessage_keeps {l l' : LsLocal} {senderId : ℕ} {msgId : U32} {topo : ℕ → LsTopoMap} (sorted : l.center.Sorted) (none : l.sends = [])
    (received : l.receiveMessage senderId msgId topo = some l') : l.Keeps l' ∧
      ∀ send ∈ l'.sends, ∀ a msg, l'.center.retrieveMessagePtr send.2 = some a → a.type = .lsaAck ∨ a.type = .tpmAck →
        l.center.retrieveMessagePtr msgId = some msg → send.1 = senderId ∧ Answers a msg := by
  have nothing : ∀ send ∈ l.sends, ∀ a msg, l.center.retrieveMessagePtr send.2 = some a → a.type = .lsaAck ∨ a.type = .tpmAck →
      l.center.retrieveMessagePtr msgId = some msg → send.1 = senderId ∧ Answers a msg := by
    rw [none]
    nofun
  unfold LsLocal.receiveMessage at received
  split_ifs at received with valid
  · cases Option.some.inj received
    exact ⟨LsLocal.keeps_self sorted, nothing⟩
  · split at received
    · cases Option.some.inj received
      exact ⟨LsLocal.keeps_self sorted, nothing⟩
    · rename_i msg found
      obtain ⟨same, fitting⟩ := sorted.retrieve found
      split at received
      · rename_i kind
        obtain ⟨keeps, sends⟩ := LsLocal.receiveTopo_keeps sorted received
        refine ⟨keeps, ?_⟩
        intro send member a other there ack again
        cases Option.some.inj (found.symm.trans again)
        rcases sends send member with old | ⟨dest, b, place, type, _, seq⟩
        · rw [none] at old
          exact absurd old List.not_mem_nil
        · cases Option.some.inj ((keeps.sorted.ack_place there ack).symm.trans place)
          have number : msg.sequenceNumber = msg.messageId := by
            rcases fitting with ⟨_, _, number⟩ | ⟨other, _⟩
            · exact number kind
            · rw [kind] at other
              simp at other
          exact ⟨dest, Or.inr ⟨kind, type, seq.trans number⟩⟩
      · rename_i kind
        obtain ⟨keeps, sends⟩ := LsLocal.receiveLSA_keeps sorted kind received
        refine ⟨keeps, ?_⟩
        intro send member a other there ack again
        cases Option.some.inj (found.symm.trans again)
        rcases sends send member with old | forward | ⟨dest, b, place, type, origin, seq⟩
        · rw [none] at old
          exact absurd old List.not_mem_nil
        · -- what is forwarded is no acknowledgment
          rw [forward] at there
          obtain ⟨id, fit⟩ := keeps.sorted.retrieve there
          rcases fit with ⟨advert, _⟩ | ⟨_, even⟩
          · rcases advert with type | type <;> rw [type] at ack <;> simp at ack
          · rcases fitting with ⟨_, odd, _⟩ | ⟨other, _⟩
            · rw [id, odd] at even
              exact absurd even nofun
            · rw [kind] at other
              simp at other
        · cases Option.some.inj ((keeps.sorted.ack_place there ack).symm.trans place)
          exact ⟨dest, Or.inl ⟨kind, type, origin, seq⟩⟩
      all_goals
        obtain ⟨keeps, sends⟩ := LsLocal.receiveAck_keeps sorted received
        refine ⟨keeps, ?_⟩
        rw [sends, none]
        nofun

theorem nonzero_of_odd {k : U32} (odd : LsMessageCenter.isLSA k = true) : k ≠ LS_INVALID_MESSAGE_ID := by
  rintro rfl
  exact absurd odd (by decide)

theorem Tracked.receive {p : LsPacket} (tracked : s.Tracked) (forth : p.dst ∈ (s.nodes p.src).peerIdList)
    (back : ∀ msg, p.acks = some msg → p.src ∈ (s.nodes p.dst).peerIdList ∧
      msg.messageId ≠ LS_INVALID_MESSAGE_ID ∧ ∃ a, p.sent = some a ∧ Answers a msg)
    (admits : ∀ msg, p.acks = some msg → s.center.retrieveMessagePtr p.msgId = p.sent ∧
      (msg.type = .lsa → ∀ peer idSeq, (s.nodes p.dst).ackManager.find p.src = some peer →
        peer.lsaMap.find msg.originNodeId = some idSeq → idSeq.msgId = msg.messageId → idSeq.seq = idSeq.msgId))
    (received : s.receive p = some t) : t.Tracked := by
  obtain ⟨l, taken, rest⟩ := Option.bind_eq_some_iff.mp received
  obtain ⟨keeps, sends⟩ := receiveMessage_keeps (l := s.enter p.dst) tracked.sorted rfl taken
  have left : ((s.renew p.dst l).leave p.dst (s.center.retrieveMessagePtr p.msgId) l).Tracked := by
    refine (tracked.renew p.dst l).leave keeps ?_ (tracked.renewed keeps)
    intro send member a msg found ack about
    obtain ⟨dest, answers⟩ := sends send member a msg found ack about
    have peer : send.1 ∈ (s.nodes p.dst).peerIdList := (keeps.inside send member).resolve_left List.not_mem_nil
    have sender : send.1 = p.src := by
      rw [dest, findPeerNodeId] at peer ⊢
      split_ifs at peer ⊢
      · rfl
      · exact absurd peer (tracked.valid p.dst)
    obtain ⟨_, ⟨_, odd, _⟩ | ⟨other, _⟩⟩ := tracked.sorted.retrieve about
    · rw [sender]
      exact ⟨forth, nonzero_of_odd odd, answers⟩
    · rcases answers with ⟨kind, _⟩ | ⟨kind, _⟩ <;> rw [kind] at other <;> simp at other
  dsimp only at rest
  rcases Option.eq_none_or_eq_some p.acks with none | ⟨msg, acks⟩
  · rw [none] at rest
    cases Option.some.inj rest
    exact left
  · rw [acks] at rest
    cases Option.some.inj rest
    obtain ⟨peer, nonzero, a, sent, answers⟩ := back msg acks
    obtain ⟨held, numbers⟩ := admits msg acks
    rw [sent] at held
    refine { left with peers := ?_, settled := ?_ }
    · intro b member
      rcases List.mem_cons.mp member with rfl | old
      · exact ⟨(congrArg (p.src ∈ ·) ((congrArg LsRouter.peerIdList (Function.update_self ..)).trans keeps.peers)).mpr peer, nonzero⟩
      · exact left.peers b old
    · intro b member
      rcases List.mem_cons.mp member with rfl | old
      · rw [show (((s.renew p.dst l).leave p.dst (s.center.retrieveMessagePtr p.msgId) l).nodes p.dst) = l.router from
          Function.update_self ..]
        have valid : p.src ≠ LS_INVALID_NODE_ID := fun same => tracked.valid p.dst (same ▸ peer)
        unfold LsLocal.receiveMessage findPeerNodeId at taken
        rw [if_pos peer, if_neg valid, show (s.enter p.dst).center.retrieveMessagePtr p.msgId = some a from held] at taken
        dsimp only at taken
        have acknowledged : (s.enter p.dst).receiveAck p.src a = some l := by
          rcases answers with ⟨_, type, _⟩ | ⟨_, type, _⟩ <;> rw [type] at taken <;> exact taken
        obtain ⟨manager, ackIn, done⟩ := Option.bind_eq_some_iff.mp acknowledged
        cases Option.some.inj done
        refine LsRetransmissionManager.ackIn_removes nonzero ackIn (fun kind => ?_) (fun kind => ?_)
        · rcases answers with ⟨other, _⟩ | ⟨_, type, seq⟩
          · exact absurd (other.symm.trans kind) nofun
          · exact ⟨type, seq⟩
        · rcases answers with ⟨_, type, origin, seq⟩ | ⟨other, _⟩
          · refine ⟨type, origin, fun peer idSeq found inside same => ?_⟩
            rw [seq, numbers kind peer idSeq found inside same, same]
          · exact absurd (other.symm.trans kind) nofun
      · exact left.settled b old

/-- What one event keeps. -/
theorem Tracked.step (tracked : s.Tracked) (admits : s.Admits e) (taken : s.step e = some t) : t.Tracked := by
  have leaves : ∀ node l, (s.enter node).Keeps l → ((s.renew node l).leave node none l).Tracked := fun node l keeps =>
    (tracked.renew node l).leave keeps (fun _ _ _ _ _ _ about => absurd about nofun) (tracked.renewed keeps)
  cases e with
  | intfChanged node links =>
    obtain ⟨l, changed, rest⟩ := Option.bind_eq_some_iff.mp taken
    cases Option.some.inj rest
    let start : LsLocal := { s.enter node with router := { (s.enter node).router with linkStateList := links } }
    have first : (s.enter node).Keeps start := LsLocal.Keeps.of_same rfl rfl rfl tracked.sorted rfl
    exact leaves node l (first.trans (LsLocal.linkStateChanged_keeps tracked.sorted changed))
  | sendUpdates node =>
    obtain ⟨l, sent, rest⟩ := Option.bind_eq_some_iff.mp taken
    cases Option.some.inj rest
    exact leaves node l (LsLocal.sendLinkStates_keeps tracked.sorted sent)
  | sendBufferedMessages node =>
    obtain ⟨l, sent, rest⟩ := Option.bind_eq_some_iff.mp taken
    cases Option.some.inj rest
    exact leaves node l (LsLocal.sendBufferedMessages_keeps tracked.sorted sent)
  | deliver i =>
    obtain ⟨p, found, received⟩ := Option.bind_eq_some_iff.mp taken
    have member := List.mem_of_getElem? found
    exact (tracked.lose i).receive (tracked.forth p member) (tracked.back p member) (fun msg => admits p msg found) received
  | lose i =>
    cases Option.some.inj taken
    exact tracked.lose i
  | timeout node peer =>
    obtain ⟨l, sent, rest⟩ := Option.bind_eq_some_iff.mp taken
    cases Option.some.inj rest
    obtain ⟨keeps, stays⟩ := LsLocal.resendMessages_keeps (l := s.enter node) tracked.sorted sent
    refine tracked.leave keeps (fun _ _ _ _ _ _ about => absurd about nofun) fun a member own waits => ?_
    exact tracked.settled a member (own ▸ stays a.peer a.msg waits)

/-- In a run that meets the condition at every delivery no node waits for a message whose acknowledgment it has. -/
theorem acked_settled {events : List LsEvent} {outs : List Unit} (started : s.Started)
    (admits : machine.Along Admits s events) (run : machine.run s events = some (t, outs)) :
    ∀ a ∈ t.acked, ¬ (t.nodes a.node).ackManager.Waits a.peer a.msg := by
  have tracked : t.Tracked := Machine.run_kept (I := Tracked) (fun s e next out tracked admits taken => by
    obtain ⟨t, stepped, same⟩ := Option.map_eq_some_iff.mp taken
    cases same
    exact tracked.step admits stepped) started.tracked admits run
  exact tracked.settled

/-- Three nodes in a row. -/
def row (first : LsStatus) : LsSystem :=
  init (fun n =>
    if n = 1 then .init 1 [2] [⟨2, first, 1, 0⟩] [2]
    else if n = 2 then .init 2 [1, 3] [⟨1, .up, 1, 0⟩, ⟨3, .up, 1, 0⟩] [1, 3]
    else if n = 3 then .init 3 [2] [⟨2, .up, 1, 0⟩] [2]
    else .init n [] [] []) (LsMessageCenter.make.setNodeNumber 3)

theorem row_started (first : LsStatus) : (row first).Started := by
  refine ⟨fun n => ?_, ⟨3, rfl⟩, rfl, rfl⟩
  unfold row init
  dsimp only
  split_ifs with one two three
  · exact ⟨_, _, _, congrArg (LsRouter.init · _ _ _) one.symm, by decide⟩
  · exact ⟨_, _, _, congrArg (LsRouter.init · _ _ _) two.symm, by decide⟩
  · exact ⟨_, _, _, congrArg (LsRouter.init · _ _ _) three.symm, by decide⟩
  · exact ⟨_, _, _, rfl, by decide⟩

theorem acked_settled_row : ∃ t outs a, machine.run (row .up) [.sendUpdates 2, .deliver 0, .deliver 1] = some (t, outs) ∧
    a ∈ t.acked ∧ ¬ (t.nodes a.node).ackManager.Waits a.peer a.msg := by
  obtain ⟨⟨t, outs⟩, run⟩ := Option.isSome_iff_exists.mp
    (by decide +kernel : (machine.run (row .up) [.sendUpdates 2, .deliver 0, .deliver 1]).isSome)
  have acked : (machine.run (row .up) [.sendUpdates 2, .deliver 0, .deliver 1]).all fun last => last.1.acked ≠ [] := by
    decide +kernel
  rw [run] at acked
  obtain ⟨a, member⟩ := List.exists_mem_of_ne_nil t.acked (of_decide_eq_true acked)
  exact ⟨t, outs, a, run, member, acked_settled (row_started .up) (by decide +kernel) run a member⟩

/-- The LSA that the node in the middle makes of a new topology record is acknowledged, and stays. -/
theorem regenerated_waits : ∃ t outs, machine.run (row .down)
      [.intfChanged 1 [⟨2, .up, 1, 0⟩], .sendBufferedMessages 1, .deliver 1, .sendBufferedMessages 2, .deliver 2, .deliver 2] = some (t, outs) ∧
    (row .down).Started ∧ ∃ a ∈ t.acked, (t.nodes a.node).ackManager.Waits a.peer a.msg := by
  let events : List LsEvent :=
    [.intfChanged 1 [⟨2, .up, 1, 0⟩], .sendBufferedMessages 1, .deliver 1, .sendBufferedMessages 2, .deliver 2, .deliver 2]
  obtain ⟨⟨t, outs⟩, run⟩ := Option.isSome_iff_exists.mp (by decide +kernel : (machine.run (row .down) events).isSome)
  have acked : (machine.run (row .down) events).all fun last => last.1.acked = [⟨2, 3, ⟨.lsa, 5, 1, 1, .null⟩⟩] := by
    decide +kernel
  have entries : (machine.run (row .down) events).all fun last =>
      ((last.1.nodes 2).ackManager.find 3).map (fun peer => peer.lsaMap.find 1) = some (some ⟨5, 1⟩) := by
    decide +kernel
  rw [run] at acked entries
  obtain ⟨peer, found, inside⟩ := Option.map_eq_some_iff.mp (of_decide_eq_true entries)
  refine ⟨t, outs, run, row_started .down, ⟨2, 3, ⟨.lsa, 5, 1, 1, .null⟩⟩, ?_, peer, found, Or.inr ⟨rfl, ⟨5, 1⟩, inside, rfl⟩⟩
  rw [of_decide_eq_true acked]
  exact List.mem_singleton_self _

end LsSystem

end Ns2
