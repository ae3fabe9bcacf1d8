import Ns2.Library.Intervals
import Ns2.Library.Machine

namespace Ns2

/-- What a receiver reads of a `SctpDataChunkHdr_S`. -/
structure SctpDataChunk where
  tsn : ℕ
  streamId : ℕ
  streamSeqNum : ℕ
  length : ℕ
  unordered : Bool
deriving DecidableEq

structure SctpRecvTsnBlock where
  startTsn : ℕ
  endTsn : ℕ
deriving DecidableEq

inductive SctpStreamMode
  | reliable
  | unreliable
deriving DecidableEq

structure SctpInStream where
  mode : SctpStreamMode
  nextStreamSeqNum : ℕ
  bufferedChunkList : List SctpDataChunk
deriving DecidableEq

/-- The receiving variables of `SctpAgent`. -/
structure SctpReceiver where
  myRwnd : ℕ
  cumAck : ℕ
  highestRecvTsn : ℕ
  recvTsnBlockList : List SctpRecvTsnBlock
  dupTsnList : List ℕ
  inStreams : List SctpInStream
  sackChunkNeeded : Bool
deriving DecidableEq

namespace SctpReceiver

/-- `n + 1` for a `u_int`. -/
def succInt (n : ℕ) : ℕ := (n + 1) % 2 ^ 32

/-- `n - 1` for a `u_int`. -/
def predInt (n : ℕ) : ℕ := (n + (2 ^ 32 - 1)) % 2 ^ 32

/-- `n + 1` for a `u_short`. -/
def succShort (n : ℕ) : ℕ := (n + 1) % 2 ^ 16

/-- `(int) n` for a `u_int`. -/
def toInt (n : ℕ) : ℤ := if n < 2 ^ 31 then n else n - 2 ^ 32

/-- The state after `Reset` and after the streams of an association were made. -/
def make (initialRwnd : ℕ) (modes : List SctpStreamMode) : SctpReceiver where
  myRwnd := initialRwnd
  cumAck := 0
  highestRecvTsn := 0
  recvTsnBlockList := []
  dupTsnList := []
  inStreams := modes.map fun mode => ⟨mode, 0, []⟩
  sackChunkNeeded := false

def updateHighestTsn (tsn : ℕ) (r : SctpReceiver) : Bool × SctpReceiver :=
  if tsn > r.highestRecvTsn then (true, { r with highestRecvTsn := tsn }) else (false, r)

/-- The search of `IsDuplicateChunk` over the rest of the block list. -/
def inTsnBlocks (tsn : ℕ) : List SctpRecvTsnBlock → Bool
  | [] => false
  | curr :: rest =>
    if curr.startTsn ≤ tsn ∧ tsn ≤ curr.endTsn then true
    else if curr.endTsn > tsn then false
    else inTsnBlocks tsn rest

def isDuplicateChunk (tsn : ℕ) (r : SctpReceiver) : Bool :=
  if tsn ≤ r.cumAck then true
  else if ¬(r.cumAck < tsn ∧ tsn ≤ r.highestRecvTsn) then false
  else if r.recvTsnBlockList.length = 0 then false
  else inTsnBlocks tsn r.recvTsnBlockList

/-- `InsertDuplicateTsn` on `sDupTsnList`. -/
def insertDuplicateTsn (tsn : ℕ) : List ℕ → List ℕ
  | [] => [tsn]
  | curr :: rest =>
    if tsn ≤ curr then if tsn ≠ curr then tsn :: curr :: rest else curr :: rest
    else curr :: insertDuplicateTsn tsn rest

/-- `UpdateCumAck`: `uiCumAck` is carried over the blocks that adjoin it. They stay in the list. -/
def updateCumAck (cumAck : ℕ) : List SctpRecvTsnBlock → ℕ
  | [] => cumAck
  | curr :: rest => if succInt cumAck = curr.startTsn then updateCumAck curr.endTsn rest else cumAck

/-- `uiCumAck` and the block list after a change of them that ends with `UpdateCumAck()`. -/
def withCumAck (cumAck : ℕ) (blocks : List SctpRecvTsnBlock) : ℕ × List SctpRecvTsnBlock :=
  (updateCumAck cumAck blocks, blocks)

/-- The loop of `UpdateRecvTsnBlocks` with the blocks it has passed, the last one first,
and with `uiLow`. `none` where it would follow a NULL `spPrevNode`. -/
def updateTsnBlocksFrom (tsn cumAck : ℕ) :
    List SctpRecvTsnBlock → ℕ → List SctpRecvTsnBlock → Option (ℕ × List SctpRecvTsnBlock)
  | passed, low, [] =>
    if tsn = low then
      if tsn = succInt cumAck then some (withCumAck tsn passed.reverse)
      else
        match passed with
        | [] => some (cumAck, [])
        | prev :: before => some (cumAck, ({ prev with endTsn := succInt prev.endTsn } :: before).reverse)
    else some (cumAck, passed.reverse ++ [⟨tsn, tsn⟩])
  | passed, low, curr :: rest =>
    let high := predInt curr.startTsn
    if low ≤ tsn ∧ tsn ≤ high then
      let gapSize := (high - low + 1) % 2 ^ 32
      if gapSize > 1 then
        if tsn = high then some (withCumAck cumAck (passed.reverse ++ { curr with startTsn := tsn } :: rest))
        else if tsn = low then
          if tsn = succInt cumAck then some (withCumAck (succInt cumAck) (passed.reverse ++ curr :: rest))
          else
            match passed with
            | [] => none
            | prev :: before =>
              some (withCumAck cumAck (({ prev with endTsn := tsn } :: before).reverse ++ curr :: rest))
        else some (cumAck, passed.reverse ++ ⟨tsn, tsn⟩ :: curr :: rest)
      else if low = succInt cumAck then some (withCumAck curr.endTsn (passed.reverse ++ rest))
      else
        match passed with
        | [] => none
        | prev :: before =>
          some (withCumAck cumAck (({ prev with endTsn := curr.endTsn } :: before).reverse ++ rest))
    else updateTsnBlocksFrom tsn cumAck (curr :: passed) (succInt curr.endTsn) rest

def updateRecvTsnBlocks (tsn : ℕ) (r : SctpReceiver) : Option SctpReceiver :=
  (updateTsnBlocksFrom tsn r.cumAck [] (succInt r.cumAck) r.recvTsnBlockList).map fun updated =>
    { r with cumAck := updated.1, recvTsnBlockList := updated.2 }

def passToUpperLayer (r : SctpReceiver) (chunk : SctpDataChunk) : SctpReceiver :=
  { r with myRwnd := (r.myRwnd + chunk.length) % 2 ^ 32 }

def insertInStreamBuffer (chunk : SctpDataChunk) : List SctpDataChunk → List SctpDataChunk
  | [] => [chunk]
  | curr :: rest =>
    if chunk.streamSeqNum ≤ curr.streamSeqNum then
      if curr.streamSeqNum ≠ chunk.streamSeqNum then chunk :: curr :: rest else curr :: rest
    else curr :: insertInStreamBuffer chunk rest

/-- `PassToStream`, with the chunks it hands to the upper layer. `none` for a
stream that is not there. -/
def passToStream (chunk : SctpDataChunk) (r : SctpReceiver) : Option (SctpReceiver × List SctpDataChunk) :=
  if chunk.unordered then some (r.passToUpperLayer chunk, [chunk])
  else
    r.inStreams[chunk.streamId]?.map fun stream =>
      let stream := { stream with bufferedChunkList := insertInStreamBuffer chunk stream.bufferedChunkList }
      ({ r with inStreams := r.inStreams.set chunk.streamId stream }, [])

/-- The `while` loop of `UpdateAllStreams` over the buffer of one stream, with the
chunks it hands to the upper layer. -/
def updateStreamFrom (cumAck : ℕ) (mode : SctpStreamMode) : ℕ → List SctpDataChunk → SctpInStream × List SctpDataChunk
  | next, [] => (⟨mode, next, []⟩, [])
  | next, chunk :: rest =>
    if mode = .unreliable ∧ chunk.tsn ≤ cumAck then
      let after := updateStreamFrom cumAck mode (succShort chunk.streamSeqNum) rest
      (after.1, chunk :: after.2)
    else if chunk.streamSeqNum = next then
      let after := updateStreamFrom cumAck mode (succShort next) rest
      (after.1, chunk :: after.2)
    else (⟨mode, next, chunk :: rest⟩, [])

def updateStream (cumAck : ℕ) (stream : SctpInStream) : SctpInStream × List SctpDataChunk :=
  updateStreamFrom cumAck stream.mode stream.nextStreamSeqNum stream.bufferedChunkList

def updateAllStreams (r : SctpReceiver) : SctpReceiver × List SctpDataChunk :=
  let updated := r.inStreams.map (updateStream r.cumAck)
  let passed := updated.flatMap Prod.snd
  (passed.foldl passToUpperLayer { r with inStreams := updated.map Prod.fst }, passed)

/-- What `ProcessDataChunk` does with a chunk that is new to it. -/
def acceptChunk (chunk : SctpDataChunk) (r : SctpReceiver) : Option (SctpReceiver × List SctpDataChunk) := do
  let r ← updateRecvTsnBlocks chunk.tsn { r with myRwnd := r.myRwnd - chunk.length }
  let (r, direct) ← passToStream chunk r
  let (r, passed) := updateAllStreams r
  return (r, direct ++ passed)

/-- `ProcessDataChunk`, with the chunks that go to the upper layer. -/
def processDataChunk (chunk : SctpDataChunk) (r : SctpReceiver) : Option (SctpReceiver × List SctpDataChunk) :=
  if chunk.length ≤ r.myRwnd then
    let (raised, r) := updateHighestTsn chunk.tsn r
    if raised = false ∧ isDuplicateChunk chunk.tsn r = true then
      some ({ r with dupTsnList := insertDuplicateTsn chunk.tsn r.dupTsnList, sackChunkNeeded := true }, [])
    else acceptChunk chunk r
  else some ({ r with sackChunkNeeded := false }, [])

/-- The TSNs that the `for` loop of `ProcessForwardTsnChunk` goes through. Its counter
is an `int`, which no bound of 2 ^ 31 - 1 can stop. -/
def forwardTsns (cumAck newCum : ℕ) : Option (List ℕ) :=
  let first := toInt (succInt cumAck)
  let last := toInt newCum
  if last = 2 ^ 31 - 1 then none
  else some ((List.range (last - first + 1).toNat).map fun k : ℕ => ((first + k) % 2 ^ 32).toNat)

def skipTsn (r : SctpReceiver) (tsn : ℕ) : Option SctpReceiver :=
  if isDuplicateChunk tsn r = false then updateRecvTsnBlocks tsn r else some r

def processForwardTsnChunk (newCum : ℕ) (r : SctpReceiver) : Option (SctpReceiver × List SctpDataChunk) := do
  let tsns ← forwardTsns r.cumAck newCum
  let r ← tsns.foldlM skipTsn r
  return updateAllStreams r

/-- The chunks of an arriving packet that a receiver keeps its books by. -/
inductive Chunk
  | data (chunk : SctpDataChunk)
  | forwardTsn (newCum : ℕ)

def processChunk (r : SctpReceiver) : Chunk → Option (SctpReceiver × List SctpDataChunk)
  | .data chunk => processDataChunk chunk r
  | .forwardTsn newCum => processForwardTsnChunk newCum r

def machine : Machine SctpReceiver Chunk (List SctpDataChunk) := ⟨processChunk⟩

end SctpReceiver

end Ns2
