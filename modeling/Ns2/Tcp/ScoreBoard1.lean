import Mathlib.Data.List.DropRight
import Ns2.Library.Machine
import Ns2.Library.Intervals
import Ns2.Tcp.SackBlock

namespace Ns2

/-- `SKB_FLAG_*`. -/
inductive SkbFlag
  | inflight
  | sacked
  | lost
  | retransmitted
deriving DecidableEq

/-- `id` is the address of the node. The constructor leaves `retran_` alone, and it is read
only of a retransmitted node; here it starts as 0. -/
structure ScoreBoardNode1 where
  id : ℕ
  flag : SkbFlag
  seq : ℤ
  nxt : ℤ
  retran : ℤ
deriving DecidableEq

namespace ScoreBoardNode1

def getEnd (n : ScoreBoardNode1) : ℤ := if n.flag = .retransmitted then n.seq else n.nxt

def getLength (n : ScoreBoardNode1) : ℤ := if n.flag = .retransmitted then 1 else n.nxt + 1 - n.seq

def setFlag (n : ScoreBoardNode1) (flag : SkbFlag) : ScoreBoardNode1 :=
  { n with nxt := if n.flag = .retransmitted then n.seq else n.nxt, flag := flag }

def Inside (n : ScoreBoardNode1) (seq : ℤ) : Prop :=
  if n.flag = .retransmitted then seq = n.seq else seq ≥ n.seq ∧ seq ≤ n.nxt

instance Inside.decidable (n : ScoreBoardNode1) (seq : ℤ) : Decidable (n.Inside seq) := by
  unfold Inside
  infer_instance

def shouldClean (n : ScoreBoardNode1) (ackseq : ℤ) : ℤ :=
  if ackseq < n.seq then 0
  else if n.flag = .retransmitted ∨ ackseq ≥ n.nxt then -1
  else ackseq + 1 - n.seq

/-- Whether the next node may be merged into this one. -/
def Mergable (n next : ScoreBoardNode1) : Prop := next.flag ≠ .retransmitted ∧ next.flag = n.flag

instance Mergable.decidable (n next : ScoreBoardNode1) : Decidable (n.Mergable next) :=
  inferInstanceAs (Decidable (_ ∧ _))

def merge (n next : ScoreBoardNode1) : ScoreBoardNode1 := { n with nxt := next.nxt }

/-- The two halves of a node that is split by `seq`, the second one at the address `id`. -/
def split (n : ScoreBoardNode1) (seq : ℤ) (id : ℕ) : ScoreBoardNode1 × ScoreBoardNode1 :=
  ({ n with nxt := seq - 1 }, ⟨id, n.flag, seq, n.nxt, 0⟩)

end ScoreBoardNode1

/-- `ScoreBoard1`: the nodes from `head_` on, and the address that `nxt_to_retrx_` holds. -/
structure ScoreBoard1 where
  nodes : List ScoreBoardNode1
  nxtToRetrx : Option ℕ
  ackedRtxId : ℤ
  rtxId : ℤ
  fack : ℤ
  fackOut : ℤ
  sackOut : ℤ
  lastRtxSeq : ℤ
  fresh : ℕ
deriving DecidableEq

namespace ScoreBoard1

def make : ScoreBoard1 := ⟨[], none, -1, 0, 0, 0, 0, -1, 0⟩

def clearScoreBoard (s : ScoreBoard1) : ScoreBoard1 :=
  { s with nodes := [], nxtToRetrx := none, ackedRtxId := -1, rtxId := 0, fack := 0, fackOut := 0, sackOut := 0 }

/-- `FLAG_DATA_SACKED`, `FLAG_DATA_LOST` and `FLAG_UNSURE_TSTAMP`. -/
def flagDataSacked : BitVec 8 := 2

def flagDataLost : BitVec 8 := 8

def flagUnsureTstamp : BitVec 8 := 16

/-- The loop of `CleanRtxQueue` over the nodes; `none` is a failed `ASSERT2`. -/
def cleanLoop (lastAck : ℤ) :
    List ScoreBoardNode1 → ScoreBoard1 → Bool → BitVec 8 → Option (ScoreBoard1 × Bool × BitVec 8)
  | [], s, changed, flag => some ({ s with nodes := [] }, changed, flag)
  | n :: rest, s, changed, flag =>
    let cmp := n.shouldClean lastAck
    if cmp = 0 then some ({ s with nodes := n :: rest }, changed, flag)
    else
      let pktNum := if cmp < 0 then n.getLength else cmp
      let sackOut := if n.flag = .sacked then s.sackOut - pktNum else s.sackOut
      let fackOut := if n.flag = .lost then s.fackOut - pktNum else s.fackOut
      if n.flag = .sacked ∧ sackOut < 0 ∨ n.flag = .lost ∧ fackOut < 0 then none
      else if cmp < 0 then
        let newest : Bool := n.flag = .retransmitted && n.retran > s.ackedRtxId
        let s := { s with
          sackOut := sackOut
          fackOut := fackOut
          ackedRtxId := if newest then n.retran else s.ackedRtxId
          nxtToRetrx := if s.nxtToRetrx = some n.id then rest.head?.map (·.id) else s.nxtToRetrx }
        cleanLoop lastAck rest s (changed || newest)
          (if n.flag = .retransmitted then flag ||| flagUnsureTstamp else flag)
      else some ({ s with nodes := { n with seq := lastAck + 1 } :: rest, sackOut := sackOut, fackOut := fackOut },
        changed, flag)

def cleanRtxQueue (s : ScoreBoard1) (lastAck : ℤ) : Option (ScoreBoard1 × Bool × BitVec 8) :=
  cleanLoop lastAck s.nodes s false 0

/-- The insertion sort of the SACK blocks by `sack_left`, from the right. -/
def insertSack (b : SackBlock) (sacks : List SackBlock) : List SackBlock :=
  sacks.rdropWhile (·.left > b.left) ++ b :: sacks.rtakeWhile (·.left > b.left)

/-- "SACK pre-processing": the blocks that are no D-SACK, in order. -/
def filterSacks (lastAck : ℤ) (blocks : List SackBlock) : List SackBlock :=
  blocks.foldl (fun sacks b => if b.left ≥ lastAck then insertSack b sacks else sacks) []

/-- The block that is being processed and what comes after it, with the SACKs from
`sack_index` on. -/
structure Visit where
  board : ScoreBoard1
  now : ScoreBoardNode1
  rest : List ScoreBoardNode1
  sacks : List SackBlock
  thorough : Bool
  flag : BitVec 8

def Visit.split (w : Visit) (seq : ℤ) : Visit :=
  let halves := w.now.split seq w.board.fresh
  { w with
    board := { w.board with fresh := w.board.fresh + 1 }
    now := halves.1
    rest := halves.2 :: w.rest }

/-- The block `now` is covered by a SACK. -/
def Visit.mark (w : Visit) : Visit :=
  let pktnum := w.now.getLength
  let retransmitted : Bool := w.now.flag = .retransmitted
  { w with
    board := { w.board with
      fackOut := if w.now.flag = .lost then w.board.fackOut - pktnum else w.board.fackOut
      ackedRtxId := if retransmitted then w.now.retran else w.board.ackedRtxId
      sackOut := w.board.sackOut + pktnum }
    now := w.now.setFlag .sacked
    thorough := retransmitted || w.thorough
    flag := (if retransmitted then w.flag ||| flagUnsureTstamp else w.flag) ||| flagDataSacked }

/-- What a SACK that ends above the start of `now` does to it. -/
def Visit.cover (w : Visit) (b : SackBlock) : Visit :=
  if b.left ≤ w.now.getEnd then
    if b.left > w.now.seq then w.split b.left
    else if b.right ≤ w.now.getEnd then (w.split b.right).mark
    else w.mark
  else w

/-- The SACKs that end below `now` are left behind. -/
def Visit.skip (w : Visit) : Visit := { w with sacks := w.sacks.dropWhile (·.right ≤ w.now.seq) }

def Visit.sack (w : Visit) : Visit :=
  match w.skip.sacks with
  | [] => w.skip
  | b :: _ => w.skip.cover b

/-- `now` is found lost, or was. -/
def Visit.lose (w : Visit) : Visit :=
  { w with board := { w.board with nxtToRetrx := w.board.nxtToRetrx <|> some w.now.id } }

/-- The check of a block that no SACK reaches. -/
def Visit.check (w : Visit) (dupackThreshold : ℤ) : Visit :=
  let lostSeqThreshold := w.board.fack - (dupackThreshold + 1)
  match w.now.flag with
  | .retransmitted =>
    if w.now.nxt ≤ w.board.fack ∨ w.now.retran + dupackThreshold + 1 < w.board.ackedRtxId then
      { w with
        board := { w.board with fackOut := w.board.fackOut + 1 }
        now := w.now.setFlag .lost
        flag := w.flag ||| flagDataLost }.lose
    else w
  | .inflight =>
    if w.now.seq ≤ lostSeqThreshold then
      let w := if lostSeqThreshold < w.now.getEnd then w.split (lostSeqThreshold + 1) else w
      { w with
        board := { w.board with fackOut := w.board.fackOut + (w.now.setFlag .lost).getLength }
        now := w.now.setFlag .lost
        flag := w.flag ||| flagDataLost }.lose
    else w
  | .lost => w.lose
  | .sacked => w

/-- No SACK from `sack_index` on reaches `now`. -/
def Visit.Unreached (w : Visit) : Prop := ∀ b ∈ w.sacks.head?, b.left > w.now.getEnd

instance Visit.Unreached.decidable (w : Visit) : Decidable w.Unreached :=
  inferInstanceAs (Decidable (∀ b ∈ w.sacks.head?, b.left > w.now.getEnd))

def Visit.process (w : Visit) (dupackThreshold : ℤ) : Visit :=
  if w.now.flag ≠ .sacked then
    let w := w.sack
    if w.Unreached then w.check dupackThreshold else w
  else w

/-- The merge with the previous node: what comes before the new `prev`, and `prev`. -/
def mergePrev (before : List ScoreBoardNode1) (prev : Option ScoreBoardNode1) (now : ScoreBoardNode1) :
    List ScoreBoardNode1 × ScoreBoardNode1 :=
  match prev with
  | some p => if p.Mergable now then (before, p.merge now) else (before ++ [p], now)
  | none => (before, now)

/-- The traversal, with the nodes before `prev`, `prev` and the nodes from `now` on; `none` is
a traversal of more than the given number of rounds. -/
def traverse (dupackThreshold : ℤ) : ℕ → List ScoreBoardNode1 → Option ScoreBoardNode1 → List ScoreBoardNode1 →
    List SackBlock → Bool → ScoreBoard1 → BitVec 8 → Option (ScoreBoard1 × BitVec 8)
  | 0, _, _, _, _, _, _, _ => none
  | _ + 1, before, prev, [], _, _, s, flag => some ({ s with nodes := before ++ prev.toList }, flag)
  | rounds + 1, before, prev, now :: rest, sacks, thorough, s, flag =>
    if sacks = [] ∧ ¬thorough then some ({ s with nodes := before ++ (prev.toList ++ now :: rest) }, flag)
    else
      let w := Visit.process ⟨s, now, rest, sacks, thorough, flag⟩ dupackThreshold
      let (before, prev) := mergePrev before prev w.now
      if w.rest = [] ∧ prev.getEnd < w.board.fack then
        traverse dupackThreshold rounds before (some prev) [⟨w.board.fresh, .inflight, prev.getEnd + 1, w.board.fack, 0⟩]
          w.sacks w.thorough { w.board with fresh := w.board.fresh + 1 } w.flag
      else traverse dupackThreshold rounds before (some prev) w.rest w.sacks w.thorough w.board w.flag

/-- More rounds than the traversal takes: each of them leaves a node or a part of one behind, and at most one
node is appended, up to `fack_`. -/
def rounds (s : ScoreBoard1) : ℕ :=
  (s.nodes.map fun n => (n.getEnd + 1 - n.seq).toNat + 1).sum +
    (s.nodes.getLast?.elim 0 fun last => (s.fack - last.getEnd).toNat) + 2

/-- The advance of `fack_` to the right end of the last SACK in order. -/
def advanceFack (s : ScoreBoard1) (sacks : List SackBlock) (thorough : Bool) : ScoreBoard1 × Bool :=
  match sacks.getLast? with
  | some b => if s.fack < b.right - 1 then ({ s with fack := b.right - 1 }, true) else (s, thorough)
  | none => (s, thorough)

/-- "If there is no scoreboard, create one." -/
def create (s : ScoreBoard1) (lastAck : ℤ) : ScoreBoard1 :=
  if s.nodes = [] then
    { s with nodes := [⟨s.fresh, .inflight, lastAck + 1, s.fack, 0⟩], fresh := s.fresh + 1 }
  else s

def updateScoreBoard (s : ScoreBoard1) (lastAck : ℤ) (blocks : List SackBlock) (dupackThreshold : ℤ) :
    Option (ScoreBoard1 × BitVec 8) := do
  let (cleaned, changed, flag) ← s.cleanRtxQueue lastAck
  let thorough : Bool := changed && cleaned.nodes ≠ []
  let s := if cleaned.nodes = [] then cleaned.clearScoreBoard else cleaned
  let sacks := filterSacks lastAck blocks
  -- The first test returns before the SACKs are filtered; there are none then.
  if ¬thorough ∧ (blocks = [] ∨ sacks = []) then return (s, flag)
  let (advanced, thorough) := s.advanceFack sacks thorough
  let s := advanced.create lastAck
  traverse dupackThreshold s.rounds [] none s.nodes sacks thorough { s with nxtToRetrx := none } flag

/-- The nodes before `prev`, `prev`, and `last_lost`. -/
structure Marking where
  board : ScoreBoard1
  before : List ScoreBoardNode1
  prev : Option ScoreBoardNode1
  lastLost : Bool

/-- One round of `MarkLoss`. -/
def Marking.round (w : Marking) (now : ScoreBoardNode1) : Marking :=
  if now.flag ≠ .sacked then
    let fackOut := if now.flag ≠ .lost then w.board.fackOut + (now.getEnd - now.seq + 1) else w.board.fackOut
    let now := now.setFlag .lost
    match w.lastLost, w.prev with
    | true, some p => { w with board := { w.board with fackOut := fackOut }, prev := some (p.merge now) }
    | _, _ =>
      { board := { w.board with fackOut := fackOut, nxtToRetrx := w.board.nxtToRetrx <|> some now.id }
        before := w.before ++ w.prev.toList
        prev := some now
        lastLost := true }
  else { w with before := w.before ++ w.prev.toList, prev := some now, lastLost := false }

/-- The rest of what was sent is appended and gets a round of its own. The board ends at
`snd_nxt - 1` then, so that no other node is appended. -/
def Marking.extend (w : Marking) (sndNxt : ℤ) : Marking :=
  match w.prev with
  | some p =>
    if p.getEnd + 1 < sndNxt then
      { w with board := { w.board with fresh := w.board.fresh + 1 } }.round
        ⟨w.board.fresh, .inflight, p.getEnd + 1, sndNxt - 1, 0⟩
    else w
  | none => w

def markLoss (s : ScoreBoard1) (sndUna sndNxt : ℤ) : ScoreBoard1 :=
  let w := (s.nodes.foldl Marking.round ⟨{ s with nxtToRetrx := none }, [], none, false⟩).extend sndNxt
  let s := { w.board with nodes := w.before ++ w.prev.toList, rtxId := 0, ackedRtxId := -1 }
  if w.prev = none ∧ sndUna < sndNxt then
    { s with
      nodes := [⟨s.fresh, .lost, sndUna, sndNxt - 1, 0⟩]
      nxtToRetrx := some s.fresh
      fackOut := s.fackOut + (sndNxt - sndUna)
      fresh := s.fresh + 1 }
  else s

/-- The nodes from `nxt_to_retrx_` on; `none` is a pointer to a node that is gone. -/
def fromRetrx (s : ScoreBoard1) : Option (List ScoreBoardNode1) :=
  match s.nxtToRetrx with
  | none => some []
  | some p => if p ∈ s.nodes.map (·.id) then some (s.nodes.dropWhile (·.id ≠ p)) else none

def getNextRetran (s : ScoreBoard1) : Option (ScoreBoard1 × ℤ) := do
  let nodes ← s.fromRetrx
  match nodes.find? (·.flag = .lost) with
  | some n => return ({ s with nxtToRetrx := some n.id }, n.seq)
  | none => return ({ s with nxtToRetrx := none }, -1)

/-- `MarkRetran` on the node at the address `p`, whose second half goes to the address `fresh`. -/
def retransmit (p fresh : ℕ) (sndNxt retransId : ℤ) : List ScoreBoardNode1 → List ScoreBoardNode1
  | [] => []
  | n :: rest =>
    if n.id = p then
      let first : ScoreBoardNode1 := ⟨n.id, .retransmitted, n.seq, sndNxt, retransId⟩
      if n.nxt > n.seq then first :: (n.split (n.seq + 1) fresh).2 :: rest else first :: rest
    else n :: retransmit p fresh sndNxt retransId rest

/-- `none` is a failed `ASSERT2`. -/
def markRetran (s : ScoreBoard1) (retranSeqno sndNxt : ℤ) : Option ScoreBoard1 := do
  let nodes ← s.fromRetrx
  let n ← nodes.head?
  if ¬n.Inside retranSeqno then none
  else if s.fackOut - 1 < 0 then none
  else
    return { s with
      nodes := retransmit n.id s.fresh sndNxt s.rtxId s.nodes
      fackOut := s.fackOut - 1
      rtxId := s.rtxId + 1
      lastRtxSeq := retranSeqno
      fresh := s.fresh + 1 }

inductive Op
  | updateScoreBoard (lastAck : ℤ) (blocks : List SackBlock) (dupackThreshold : ℤ)
  | cleanRtxQueue (lastAck : ℤ)
  | markLoss (sndUna sndNxt : ℤ)
  | getNextRetran
  | markRetran (retranSeqno sndNxt : ℤ)
  | clearScoreBoard
deriving DecidableEq

/-- The answers are the flags of `UpdateScoreBoard` and what `GetNextRetran` returns. -/
def machine : Machine ScoreBoard1 Op (Option (BitVec 8 ⊕ ℤ)) where
  step s
    | .updateScoreBoard lastAck blocks dupackThreshold =>
      (s.updateScoreBoard lastAck blocks dupackThreshold).map fun out => (out.1, some (.inl out.2))
    | .cleanRtxQueue lastAck => (s.cleanRtxQueue lastAck).map fun out => (out.1, none)
    | .markLoss sndUna sndNxt => some (s.markLoss sndUna sndNxt, none)
    | .getNextRetran => s.getNextRetran.map fun out => (out.1, some (.inr out.2))
    | .markRetran retranSeqno sndNxt => (s.markRetran retranSeqno sndNxt).map fun next => (next, none)
    | .clearScoreBoard => some (s.clearScoreBoard, none)

end ScoreBoard1

end Ns2
