import Mathlib.Data.Int.DivMod
import Ns2.Library.Ring

namespace Ns2

inductive DCCPPacketState
  | recv
  | ecn
  | reserved
  | notRecv
  deriving DecidableEq

/-- The values of `dccp_packet_state`. -/
def DCCPPacketState.code : DCCPPacketState → BitVec 8
  | recv => 0
  | ecn => 1
  | reserved => 2
  | notRecv => 3

def DCCPPacketState.ofCode (code : BitVec 8) : DCCPPacketState :=
  if code = 0 then recv else if code = 1 then ecn else if code = 2 then reserved else notRecv

inductive ECNCodepoint
  | ect0
  | ect1
  | notEct
  | ce
  deriving DecidableEq

def ECNCodepoint.code : ECNCodepoint → BitVec 8
  | ect0 => 0
  | ect1 => 1
  | notEct => 2
  | ce => 3

/-- `DCCP_MAX_ACKV_SIZE` -/
def maxAckvSize : ℕ := 0xFFFF

/-- `DCCP_RUN_LENGTH_MASK` -/
def runLengthMask : ℕ := 0x3F

/-- The two parts of a byte of the vector: `item >> DCCP_RUN_LENGTH_BITS`
and `item & DCCP_RUN_LENGTH_MASK`. -/
def itemState (item : BitVec 8) : DCCPPacketState := .ofCode (item >>> 6)

def itemRunlen (item : BitVec 8) : ℕ := (item &&& 0x3F).toNat

/-- `state << DCCP_RUN_LENGTH_BITS | (runlen & DCCP_RUN_LENGTH_MASK)` -/
def packItem (state : DCCPPacketState) (runlen : ℕ) : BitVec 8 := state.code <<< 6 ||| (BitVec.ofNat 8 runlen &&& 0x3F)

/-- The same where the source adds the run length. -/
def addedItem (state : DCCPPacketState) (runlen : ℕ) : BitVec 8 := state.code <<< 6 + BitVec.ofNat 8 runlen

/-- Subtraction of `u_int32_t`. -/
def sub32 (a b : ℕ) : ℕ := (a + 2 ^ 32 - b) % 2 ^ 32

structure AckHistEntry where
  seqSent : ℕ
  ackNum : ℕ
  ene : BitVec 8

structure DCCPAckVector where
  vector : ℕ → BitVec 8
  size : ℕ
  maxSize : ℕ
  head : ℕ
  tail : ℕ
  seqHead : ℕ
  seqTail : ℕ
  ene : BitVec 8
  pWalk : ℕ
  seqPWalk : ℕ
  deltaPWalk : ℕ
  pWalking : Bool
  pReverse : Bool
  iWalk : ℕ
  seqIWalk : ℕ
  iWalking : Bool
  ackHist : List AckHistEntry
  ackvCons : DCCPPacketState → DCCPPacketState → DCCPPacketState

namespace DCCPAckVector

/-- The matrix that the constructor sets. -/
def cons : DCCPPacketState → DCCPPacketState → DCCPPacketState
  | .recv, .reserved => .reserved
  | .recv, _ => .recv
  | .ecn, .reserved => .reserved
  | .ecn, _ => .ecn
  | .reserved, _ => .reserved
  | .notRecv, state => state

/-- What a new array of a given size happens to hold. A vector never
allocates two arrays of one size. -/
abbrev Fresh := ℕ → ℕ → BitVec 8

variable (fresh : Fresh)

def new (initialSize : ℕ) : DCCPAckVector where
  vector := fresh initialSize
  size := 0
  maxSize := initialSize
  head := 0
  tail := 0
  seqHead := 0
  seqTail := 0
  ene := 0
  pWalk := 0
  seqPWalk := 0
  deltaPWalk := 0
  pWalking := false
  pReverse := false
  iWalk := 0
  seqIWalk := 0
  iWalking := false
  ackHist := []
  ackvCons := cons

/-- The bytes from `head` on, as `doubleMaxSize` and `getAckVector` copy them. -/
def copied (v : DCCPAckVector) : List (BitVec 8) := (List.range v.size).map fun i => v.vector ((v.head + i) % v.maxSize)

/-- `none` where the source returns false, with the vector unchanged. -/
def doubleMaxSize (v : DCCPAckVector) : Option DCCPAckVector :=
  if v.maxSize = maxAckvSize then none
  else
    let newMaxSize := if maxAckvSize < v.maxSize * 2 then maxAckvSize else v.maxSize * 2
    some { v with
      vector := fun i => if i < v.size then v.vector ((v.head + i) % v.maxSize) else fresh newMaxSize i
      maxSize := newMaxSize
      head := if 0 < v.size then 0 else v.head
      tail := if 0 < v.size then v.size - 1 else v.tail }

/-- How deep calls that double the vector can nest: from one byte on, after
sixteen of them its size is the largest one. -/
def nesting : ℕ := 17

/-- `while(walker != head_)` of `addItems`. -/
def fillItems (item : BitVec 8) (head maxSize : ℕ) : ℕ → ℕ → (ℕ → BitVec 8) → ℕ → BitVec 8
  | 0, _, vector => vector
  | fuel + 1, walker, vector =>
    if walker = head then vector else fillItems item head maxSize fuel ((walker + 1) % maxSize) (Function.update vector walker item)

def addItems (state : DCCPPacketState) (runlen count : ℕ) : ℕ → DCCPAckVector → Bool × DCCPAckVector
  | 0, v => (false, v)
  | depth + 1, v =>
    if v.maxSize < v.size + count then
      match v.doubleMaxSize fresh with
      | none => (false, v)
      | some v => addItems state runlen count depth v
    else
      let seqHead := if v.size ≠ 0 then (v.seqHead + (runlen + 1) * count) % 2 ^ 32 else v.seqHead
      let newHead := (v.head + v.maxSize - count) % v.maxSize
      (true, { v with
        seqHead := seqHead
        vector := fillItems (packItem state runlen) v.head v.maxSize v.maxSize newHead v.vector
        size := v.size + count
        head := newHead })

/-- The loop of `findSeqNum`. -/
def findFrom (v : DCCPAckVector) (seqnum : ℕ) : ℕ → ℕ → ℕ → Option (ℕ × ℕ × ℕ)
  | 0, _, _ => none
  | fuel + 1, place, seqStart =>
    let seqEnd := sub32 seqStart (itemRunlen (v.vector place))
    if seqEnd ≤ seqnum ∧ seqnum ≤ seqStart then some (place, seqStart, seqEnd)
    else
      let next := (place + 1) % v.maxSize
      if next = (v.tail + 1) % v.maxSize then none else findFrom v seqnum fuel next (sub32 seqEnd 1)

/-- The place of the item that a number belongs to, and the numbers it starts and ends with. -/
def findSeqNum (v : DCCPAckVector) (seqnum : ℕ) : Option (ℕ × ℕ × ℕ) :=
  if v.size = 0 ∨ v.seqHead < seqnum ∨ seqnum < v.seqTail then none else v.findFrom seqnum v.maxSize v.head v.seqHead

def getState (v : DCCPAckVector) (seqnum : ℕ) : Option DCCPPacketState :=
  if v.size = 0 ∨ v.seqHead < seqnum ∨ seqnum < v.seqTail then none
  else (v.findSeqNum seqnum).map fun found => itemState (v.vector found.1)

/-- `while (from != where)` of `alterState`. -/
def moveItems (place maxSize : ℕ) : ℕ → ℕ → ℕ → (ℕ → BitVec 8) → ℕ → BitVec 8
  | 0, _, _, vector => vector
  | fuel + 1, src, dst, vector =>
    if src = place then vector
    else moveItems place maxSize fuel ((src + 1) % maxSize) ((dst + 1) % maxSize) (Function.update vector dst (vector src))

/-- The end of `alterState`: the items take the place of the one at `place`. -/
def replaceItem (v : DCCPAckVector) (place : ℕ) (items : List (BitVec 8)) : DCCPAckVector :=
  let more := items.length - 1
  let before := (v.head + v.maxSize - more) % v.maxSize
  let grown := { v with size := v.size + more }
  if place = v.tail then
    { grown with tail := (v.tail + more) % v.maxSize, vector := Ring.writes v.maxSize v.vector place items }
  else if place = v.head then
    { grown with head := before, vector := Ring.writes v.maxSize v.vector before items }
  else
    let moved := moveItems place v.maxSize v.maxSize v.head before v.vector
    { grown with head := before, vector := Ring.writes v.maxSize moved ((place + v.maxSize - more) % v.maxSize) items }

/-- The items into which `alterState` splits an item for more than one packet. -/
def splitItem (item : BitVec 8) (newstate : DCCPPacketState) (seqnum seqStart seqEnd : ℕ) : List (BitVec 8) :=
  let oldState := itemState item
  let oldRunlen := itemRunlen item
  if seqnum = seqStart then [addedItem newstate 0, addedItem oldState (oldRunlen - 1)]
  else if seqnum = seqEnd then [addedItem oldState (oldRunlen - 1), addedItem newstate 0]
  else [addedItem oldState (oldRunlen - 1 - (seqnum - seqEnd)), addedItem newstate 0, addedItem oldState (oldRunlen - 1 - (seqStart - seqnum))]

/-- Beside its result, `alterState` hands out the old state of a packet that it finds. -/
def alterState (seqnum : ℕ) (newstate : DCCPPacketState) : ℕ → DCCPAckVector → Bool × Option DCCPPacketState × DCCPAckVector
  | 0, v => (false, none, v)
  | depth + 1, v =>
    match v.findSeqNum seqnum with
    | none => (false, none, v)
    | some (place, seqStart, seqEnd) =>
      let item := v.vector place
      if itemState item = newstate then (true, itemState item, v)
      else if itemRunlen item = 0 then
        (true, itemState item, { v with vector := Function.update v.vector place (addedItem newstate 0) })
      else
        let items := splitItem item newstate seqnum seqStart seqEnd
        if v.maxSize < v.size + (items.length - 1) then
          match v.doubleMaxSize fresh with
          | none => (false, itemState item, v)
          | some v =>
            let (result, _, v) := alterState seqnum newstate depth v
            (result, itemState item, v)
        else (true, itemState item, v.replaceItem place items)

def addPacket (seqnum : ℕ) (state : DCCPPacketState) : ℕ → DCCPAckVector → Bool × DCCPAckVector
  | 0, v => (false, v)
  | depth + 1, v =>
    let dist := ((seqnum : ℤ) - v.seqHead).bmod (2 ^ 32)
    if v.size = 0 then
      addItems fresh state 0 1 nesting { v with seqHead := seqnum, seqTail := seqnum, head := 0, tail := v.maxSize - 1 }
    else if 1 < dist then
      let numFulls := (dist - 2).toNat / (runLengthMask + 1)
      let lastRunlen := (dist - 2).toNat % (runLengthMask + 1)
      if v.maxSize < v.size + numFulls + 1 + 1 then
        match v.doubleMaxSize fresh with
        | none => (false, v)
        | some v => addPacket seqnum state depth v
      else
        let v := if 0 < numFulls then (addItems fresh .notRecv runLengthMask numFulls nesting v).2 else v
        let v := (addItems fresh .notRecv lastRunlen 1 nesting v).2
        addItems fresh state 0 1 nesting v
    else if dist = 1 then
      let last := v.vector v.head
      if itemRunlen last < runLengthMask ∧ itemState last = state then
        (true, { v with vector := Function.update v.vector v.head (last + 1), seqHead := seqnum })
      else addItems fresh state 0 1 nesting v
    else
      match v.getState seqnum with
      | none => (false, v)
      | some currState =>
        let (result, _, v) := alterState fresh seqnum (v.ackvCons currState state) nesting v
        (result, v)

/-- The other `addPacket`, which takes a packet's ECN codepoint. -/
def addPacketEcn (seqnum : ℕ) (ecn : ECNCodepoint) (addNonce : Bool) (v : DCCPAckVector) : Bool × DCCPAckVector :=
  let (result, v) := addPacket fresh seqnum (if ecn = .ce then .ecn else .recv) nesting v
  (result, if result && addNonce && (ecn = .ect0 || ecn = .ect1) then { v with ene := v.ene ^^^ ecn.code } else v)

/-- An emptied vector. -/
def emptied (v : DCCPAckVector) : DCCPAckVector := { v with size := 0, seqTail := v.seqHead, tail := v.head, ene := 0 }

def removePackets (seqnum : ℕ) (v : DCCPAckVector) : DCCPAckVector :=
  if v.size = 0 ∨ seqnum < v.seqTail then v
  else if v.seqHead < seqnum then v.emptied
  else match v.findSeqNum seqnum with
  | none => v
  | some (place, seqStart, seqEnd) =>
    if 0 < sub32 seqStart seqEnd ∧ seqStart ≠ seqnum then
      { v with
        vector := Function.update v.vector place (v.vector place - BitVec.ofNat 8 (seqnum - seqEnd + 1))
        size := (place + v.maxSize - v.head) % v.maxSize + 1
        tail := place
        seqTail := seqnum + 1 }
    else if place = v.head then v.emptied
    else
      let place := (place + v.maxSize - 1) % v.maxSize
      { v with size := (place + v.maxSize - v.head) % v.maxSize + 1, tail := place, seqTail := seqnum + 1 }

def startPacketWalk (v : DCCPAckVector) : DCCPAckVector :=
  { v with pWalk := v.head, seqPWalk := v.seqHead, deltaPWalk := 0, pWalking := v.size ≠ 0, pReverse := false }

def nextPacket (v : DCCPAckVector) : Option (ℕ × DCCPPacketState) × DCCPAckVector :=
  if !v.pWalking || v.pReverse then (none, v)
  else
    let on := itemRunlen (v.vector v.pWalk) < v.deltaPWalk
    let pWalk := if on then (v.pWalk + 1) % v.maxSize else v.pWalk
    let delta := if on then 0 else v.deltaPWalk
    (some (v.seqPWalk, itemState (v.vector pWalk)),
      { v with pWalk := pWalk, deltaPWalk := delta + 1, pWalking := v.seqPWalk ≠ v.seqTail, seqPWalk := sub32 v.seqPWalk 1 })

def startReversePacketWalk (v : DCCPAckVector) : DCCPAckVector :=
  { v with pWalk := v.tail, seqPWalk := v.seqTail, deltaPWalk := 0, pWalking := v.size ≠ 0, pReverse := true }

def prevPacket (v : DCCPAckVector) : Option (ℕ × DCCPPacketState) × DCCPAckVector :=
  if !v.pWalking || !v.pReverse then (none, v)
  else
    let on := itemRunlen (v.vector v.pWalk) < v.deltaPWalk
    let pWalk := if on then (v.pWalk + v.maxSize - 1) % v.maxSize else v.pWalk
    let delta := if on then 0 else v.deltaPWalk
    (some (v.seqPWalk, itemState (v.vector pWalk)),
      { v with pWalk := pWalk, deltaPWalk := delta + 1, pWalking := v.seqPWalk ≠ v.seqHead, seqPWalk := (v.seqPWalk + 1) % 2 ^ 32 })

def startIntervalWalk (v : DCCPAckVector) : DCCPAckVector :=
  { v with iWalk := v.head, seqIWalk := v.seqHead, iWalking := v.size ≠ 0 }

/-- The item of the next interval, the numbers that start and end it, and its state. -/
def nextInterval (v : DCCPAckVector) : Option (BitVec 8 × ℕ × ℕ × DCCPPacketState) × DCCPAckVector :=
  if !v.iWalking then (none, v)
  else
    let interval := v.vector v.iWalk
    let seqEnd := sub32 v.seqIWalk (itemRunlen interval)
    (some (interval, v.seqIWalk, seqEnd, itemState interval),
      { v with iWalking := v.iWalk ≠ v.tail, iWalk := (v.iWalk + 1) % v.maxSize, seqIWalk := sub32 seqEnd 1 })

/-- The bytes that `getAckVector` copies for a caller with enough room. -/
def getAckVector (v : DCCPAckVector) : Option (List (BitVec 8)) := if v.size = 0 then none else some v.copied

/-- `seq_end` after the loop of `setAckVector`: the last item is not followed by another one. -/
def seqEndOf (seqEnd : ℕ) : List (BitVec 8) → ℕ
  | [] => seqEnd
  | [last] => sub32 seqEnd (itemRunlen last)
  | item :: next :: rest => seqEndOf (sub32 seqEnd (itemRunlen item + 1)) (next :: rest)

/-- `setAckVector` where there is room. -/
def importVector (vect : List (BitVec 8)) (seqStart : ℕ) (ene : BitVec 8) (v : DCCPAckVector) : DCCPAckVector :=
  { v with
    vector := fun i => vect.getD i (v.vector i)
    size := vect.length
    head := 0
    tail := (vect.length + (2 ^ 16 - 1)) % 2 ^ 16
    seqHead := seqStart
    seqTail := seqEndOf seqStart vect
    ene := ene
    ackHist := [] }

def setAckVector (vect : List (BitVec 8)) (seqStart : ℕ) (ene : BitVec 8) : ℕ → DCCPAckVector → Bool × DCCPAckVector
  | 0, v => (false, v)
  | depth + 1, v =>
    if v.maxSize < vect.length then
      let v := { v with size := 0 }
      match v.doubleMaxSize fresh with
      | none => (false, v)
      | some v => setAckVector vect seqStart ene depth v
    else
      (true, v.importVector vect seqStart ene)

end DCCPAckVector

end Ns2
