import Mathlib.Data.List.Range
import Mathlib.Tactic.SplitIfs
import Ns2.Library.Machine
import Ns2.Library.Ring
import Ns2.Tcp.SackBlock

namespace Ns2

structure ScoreBoardNode where
  seqNo : ℕ
  ackFlag : Bool
  sackFlag : Bool
  retran : Bool
  sndNxt : ℤ
deriving DecidableEq

/-- What the cumulative ACK makes of an entry. -/
def ScoreBoardNode.acked (n : ScoreBoardNode) : ScoreBoardNode :=
  ⟨n.seqNo, true, true, false, if n.retran then 0 else n.sndNxt⟩

/-- What a SACK block makes of an entry. -/
def ScoreBoardNode.sacked (n : ScoreBoardNode) : ScoreBoardNode := ⟨n.seqNo, n.ackFlag, true, false, n.sndNxt⟩

/-- `ScoreBoard`; `fresh` is what newly allocated nodes hold. -/
structure ScoreBoard where
  first : ℕ
  length : ℕ
  sbsize : ℕ
  changed : ℕ
  sbn : ℕ → ScoreBoardNode
  fresh : ℕ → ScoreBoardNode

namespace ScoreBoard

def make (sbn : ℕ → ScoreBoardNode) (sz : ℕ) (fresh : ℕ → ScoreBoardNode) : ScoreBoard := ⟨0, 0, sz, 0, sbn, fresh⟩

/-- `SBNI`. -/
def node (s : ScoreBoard) (i : ℕ) : ScoreBoardNode := s.sbn (i % s.sbsize)

def setNode (s : ScoreBoard) (i : ℕ) (n : ScoreBoardNode) : ScoreBoard :=
  { s with sbn := Function.update s.sbn (i % s.sbsize) n }

@[simp] theorem setNode_first (s : ScoreBoard) (i : ℕ) (n : ScoreBoardNode) : (s.setNode i n).first = s.first := rfl

@[simp] theorem setNode_length (s : ScoreBoard) (i : ℕ) (n : ScoreBoardNode) : (s.setNode i n).length = s.length := rfl

@[simp] theorem setNode_sbsize (s : ScoreBoard) (i : ℕ) (n : ScoreBoardNode) : (s.setNode i n).sbsize = s.sbsize := rfl

/-- A new entry. -/
def blank (i : ℕ) : ScoreBoardNode := ⟨i, false, false, false, 0⟩

def clearScoreBoard (s : ScoreBoard) : ScoreBoard := { s with length := 0 }

/-- The two `MarkRetran`, without and with `snd_nxt`. -/
def markRetran (s : ScoreBoard) (retranSeqno : ℕ) (sndNxt : Option ℤ) : ScoreBoard :=
  s.setNode retranSeqno { s.node retranSeqno with
    retran := true
    sndNxt := sndNxt.getD (s.node retranSeqno).sndNxt }

def resizeSB (s : ScoreBoard) (sz : ℕ) : ScoreBoard :=
  { s with
    sbn := Ring.fill (· % sz) s.node s.fresh (s.node s.first).seqNo (s.length + 1)
    sbsize := sz }

/-- The loop that doubles the board until `sack_right` fits. A board without places
has divided by zero before. -/
def makeRoom (s : ScoreBoard) (lastAck sackRight : ℤ) : ScoreBoard :=
  if 0 < s.sbsize ∧ sackRight - lastAck ≥ s.sbsize - 1 then (s.resizeSB (s.sbsize * 2)).makeRoom lastAck sackRight
  else s
termination_by (sackRight - lastAck + 2 - s.sbsize).toNat
decreasing_by
  simp only [resizeSB]
  omega

/-- The loop that advances the left edge, `count` numbers from `i` on. `none` is a failed `ASSERT`. -/
def ackLoop (lastAck : ℤ) : ℕ → ℕ → ScoreBoard → ℕ → Option (ScoreBoard × ℕ)
  | 0, _, s, retranDecr => some (s, retranDecr)
  | count + 1, i, s, retranDecr =>
    if (s.node i).seqNo ≤ lastAck then
      if s.first ≠ i ∨ s.length = 0 then none
      else
        let n := s.node i
        let next := { s with first := s.first + 1, length := s.length - 1, changed := s.changed + 1 }.setNode i n.acked
        let retranDecr := if n.retran then retranDecr + 1 else retranDecr
        if s.length - 1 = 0 then some (next, retranDecr) else ackLoop lastAck count (i + 1) next retranDecr
    else ackLoop lastAck count (i + 1) s retranDecr

def advance (s : ScoreBoard) (lastAck : ℤ) : Option (ScoreBoard × ℕ) :=
  if s.length ≠ 0 ∧ (s.node s.first).seqNo ≤ lastAck then
    ackLoop lastAck (lastAck + 1 - (s.node s.first).seqNo).toNat (s.node s.first).seqNo s 0
  else some (s, 0)

/-- "If there is no scoreboard, create one." -/
def create (s : ScoreBoard) (lastAck : ℤ) (blocks : List SackBlock) : Option ScoreBoard :=
  if s.length = 0 ∧ blocks ≠ [] then
    let i := (lastAck + 1).toNat
    if s.length + 1 ≥ s.sbsize then none
    else some { s.setNode i (blank i) with first := i, length := s.length + 1, changed := s.changed + 1 }
  else some s

/-- The last entry of the board. -/
def last (s : ScoreBoard) : ScoreBoardNode := s.sbn ((s.first + s.length + s.sbsize - 1) % s.sbsize)

/-- The loop that creates `count` entries off the right side. -/
def appendLoop : ℕ → ℕ → ScoreBoard → Option ScoreBoard
  | 0, _, s => some s
  | count + 1, i, s =>
    if s.length + 1 ≥ s.sbsize then none
    else appendLoop count (i + 1) { s.setNode i (blank i) with length := s.length + 1, changed := s.changed + 1 }

/-- The loop that flags what the block covers, `count` numbers from `i` on. -/
def sackLoop (b : SackBlock) : ℕ → ℕ → ScoreBoard → ℕ → ScoreBoard × ℕ
  | 0, _, s, retranDecr => (s, retranDecr)
  | count + 1, i, s, retranDecr =>
    let n := s.node i
    if b.Covers n.seqNo then
      let s := { s with changed := if n.sackFlag then s.changed else s.changed + 1 }.setNode i n.sacked
      sackLoop b count (i + 1) s (if n.retran then retranDecr + 1 else retranDecr)
    else sackLoop b count (i + 1) s retranDecr

/-- "Create new entries off the right side." -/
def extend (s : ScoreBoard) (lastAck : ℤ) (b : SackBlock) : Option ScoreBoard :=
  if b.right > s.last.seqNo then
    let s := s.makeRoom lastAck b.right
    appendLoop (b.right - (s.last.seqNo + 1)).toNat (s.last.seqNo + 1) s
  else some s

/-- The loop over the SACK blocks. -/
def sackBlocks (lastAck : ℤ) : List SackBlock → ScoreBoard → ℕ → Option (ScoreBoard × ℕ)
  | [], s, retranDecr => some (s, retranDecr)
  | b :: blocks, s, retranDecr => do
    let s ← s.extend lastAck b
    let (s, retranDecr) := sackLoop b (b.right - (s.node s.first).seqNo).toNat (s.node s.first).seqNo s retranDecr
    sackBlocks lastAck blocks s retranDecr

def updateScoreBoard (s : ScoreBoard) (lastAck : ℤ) (blocks : List SackBlock) : Option (ScoreBoard × ℕ) := do
  let (s, retranDecr) ← { s with changed := 0 }.advance lastAck
  let s ← s.create lastAck blocks
  sackBlocks lastAck blocks s retranDecr

/-- The loop of `GetNextRetran` over `count` numbers from `i` on. -/
def retranLoop (s : ScoreBoard) : ℕ → ℕ → ℤ
  | 0, _ => -1
  | count + 1, i =>
    if !(s.node i).ackFlag && !(s.node i).sackFlag && !(s.node i).retran then i else s.retranLoop count (i + 1)

def getNextRetran (s : ScoreBoard) : ℤ :=
  if s.length ≠ 0 then s.retranLoop s.length (s.node s.first).seqNo else -1

inductive Op
  | updateScoreBoard (lastAck : ℤ) (blocks : List SackBlock)
  | getNextRetran
  | markRetran (retranSeqno : ℤ) (sndNxt : Option ℤ)
  | clearScoreBoard
deriving DecidableEq

/-- The answers are those of `UpdateScoreBoard` and `GetNextRetran`. -/
def machine : Machine ScoreBoard Op (Option ℤ) where
  step s
    | .updateScoreBoard lastAck blocks => (s.updateScoreBoard lastAck blocks).map fun next => (next.1, some next.2)
    | .getNextRetran => some (s, some s.getNextRetran)
    | .markRetran retranSeqno sndNxt => some (s.markRetran retranSeqno.toNat sndNxt, none)
    | .clearScoreBoard => some (s.clearScoreBoard, none)

/-- What the board has been told: the highest cumulative ACK, and the SACK blocks
and retransmissions since it was last cleared. -/
structure Told where
  highest : ℤ
  blocks : List SackBlock
  marked : List ℤ

/-- Nothing yet; no `last_ack_` is below -1, where the senders' `highest_ack_` starts. -/
def Told.nothing : Told := ⟨-2, [], []⟩

def Told.tell (told : Told) : Op → Told
  | .updateScoreBoard lastAck blocks =>
    { told with highest := max told.highest lastAck, blocks := told.blocks ++ blocks }
  | .getNextRetran => told
  | .markRetran retranSeqno _ => { told with marked := told.marked ++ [retranSeqno] }
  | .clearScoreBoard => { told with blocks := [], marked := [] }

def Told.Covers (told : Told) (seq : ℤ) : Prop := ∃ b ∈ told.blocks, b.Covers seq

def Op.lastAck? : Op → Option ℤ
  | .updateScoreBoard lastAck _ => some lastAck
  | _ => none

/-- Only a sequence number on the board is marked. -/
def OnBoard (s : ScoreBoard) : Op → Prop
  | .markRetran retranSeqno _ => s.first ≤ retranSeqno ∧ retranSeqno < s.first + s.length
  | _ => True

instance OnBoard.decidable (s : ScoreBoard) : ∀ op, Decidable (OnBoard s op)
  | .markRetran _ _ => inferInstanceAs (Decidable (_ ∧ _))
  | .updateScoreBoard _ _ => isTrue trivial
  | .getNextRetran => isTrue trivial
  | .clearScoreBoard => isTrue trivial

/-- The board holds `entry` at the numbers from `first_` on; elsewhere `entry` is blank. -/
structure Shows (s : ScoreBoard) (entry : ℕ → ScoreBoardNode) : Prop where
  window : Ring.Window s.sbsize s.sbn s.first (s.first + s.length) entry
  room : s.length < s.sbsize
  places : 2 ≤ s.sbsize
  numbered : ∀ k, (entry k).seqNo = k
  unacked : ∀ k, (entry k).ackFlag = false
  outside : ∀ k, ¬(s.first ≤ k ∧ k < s.first + s.length) → entry k = blank k

variable {s : ScoreBoard} {entry : ℕ → ScoreBoardNode} {lastAck : ℤ}

theorem Shows.node_eq (shows : Shows s entry) {k : ℕ} (low : s.first ≤ k) (high : k < s.first + s.length) :
    s.node k = entry k := shows.window.stored k low high

theorem Shows.node_first (shows : Shows s entry) (nonempty : s.length ≠ 0) : s.node s.first = entry s.first :=
  shows.node_eq le_rfl (by omega)

theorem Shows.first_seqNo (shows : Shows s entry) (nonempty : s.length ≠ 0) : (s.node s.first).seqNo = s.first := by
  rw [shows.node_first nonempty, shows.numbered]

theorem Shows.last_seqNo (shows : Shows s entry) (nonempty : s.length ≠ 0) :
    s.last.seqNo = s.first + s.length - 1 := by
  have places := shows.places
  have wrapped : (s.first + s.length + s.sbsize - 1) % s.sbsize = (s.first + s.length - 1) % s.sbsize := by
    rw [show s.first + s.length + s.sbsize - 1 = s.first + s.length - 1 + s.sbsize by omega, Nat.add_mod_right]
  rw [last, wrapped, shows.window.stored _ (by omega) (by omega), shows.numbered]

/-- A new entry for a number on the board. -/
theorem Shows.set (shows : Shows s entry) {i : ℕ} (low : s.first ≤ i) (high : i < s.first + s.length)
    {n : ScoreBoardNode} (numbered : n.seqNo = i) (unacked : n.ackFlag = false) :
    Shows (s.setNode i n) (Function.update entry i n) where
  window := shows.window.write low high n
  room := shows.room
  places := shows.places
  numbered k := by
    by_cases same : k = i
    · rw [same, Function.update_self, numbered]
    · rw [Function.update_of_ne same, shows.numbered]
  unacked k := by
    by_cases same : k = i
    · rw [same, Function.update_self, unacked]
    · rw [Function.update_of_ne same, shows.unacked]
  outside k beyond := by
    have other : k ≠ i := fun same => beyond ⟨same ▸ low, same ▸ high⟩
    rw [Function.update_of_ne other]
    exact shows.outside k beyond

theorem Shows.changed (shows : Shows s entry) (changed : ℕ) : Shows { s with changed := changed } entry :=
  ⟨shows.window, shows.room, shows.places, shows.numbered, shows.unacked, shows.outside⟩

section Resize

theorem Shows.resizeSB (shows : Shows s entry) (nonempty : s.length ≠ 0) {sz : ℕ} (larger : s.sbsize ≤ sz) :
    Shows (s.resizeSB sz) entry where
  window := by
    have room := shows.room
    have filled := (Ring.Window.empty sz s.fresh s.node s.first).fill s.node (s.length + 1) le_rfl (by omega)
      fun _ _ _ => rfl
    rw [ScoreBoard.resizeSB, shows.first_seqNo nonempty]
    exact (filled.shrink le_rfl (Nat.le_succ _)).congr fun k low high => shows.node_eq low high
  room := shows.room.trans_le larger
  places := shows.places.trans larger
  numbered := shows.numbered
  unacked := shows.unacked
  outside := shows.outside

theorem Shows.makeRoom (shows : Shows s entry) (nonempty : s.length ≠ 0) (lastAck sackRight : ℤ) :
    Shows (s.makeRoom lastAck sackRight) entry ∧ (s.makeRoom lastAck sackRight).first = s.first ∧
      (s.makeRoom lastAck sackRight).length = s.length ∧
      sackRight - lastAck < (s.makeRoom lastAck sackRight).sbsize - 1 := by
  fun_induction ScoreBoard.makeRoom s lastAck sackRight with
  | case1 s small ih => exact ih (shows.resizeSB nonempty (by omega)) nonempty
  | case2 s large =>
    have places := shows.places
    exact ⟨shows, rfl, rfl, by omega⟩

end Resize

section Advance

/-- The entries from `f` on. -/
def keepFrom (f : ℕ) (entry : ℕ → ScoreBoardNode) (k : ℕ) : ScoreBoardNode := if f ≤ k then entry k else blank k

theorem keepFrom_keepFrom {f g : ℕ} (less : f ≤ g) : keepFrom g (keepFrom f entry) = keepFrom g entry := by
  funext k
  by_cases above : g ≤ k
  · rw [keepFrom, keepFrom, keepFrom, if_pos above, if_pos above, if_pos (less.trans above)]
  · simp only [keepFrom, if_neg above]

theorem Shows.keepFrom_first (shows : Shows s entry) : keepFrom s.first entry = entry := by
  funext k
  rw [keepFrom]
  split_ifs with above
  · rfl
  · exact (shows.outside k fun inside => above inside.1).symm

theorem Shows.dropFirst (shows : Shows s entry) (nonempty : s.length ≠ 0) (changed : ℕ) (n : ScoreBoardNode) :
    Shows ({ s with first := s.first + 1, length := s.length - 1, changed := changed }.setNode s.first n)
      (keepFrom (s.first + 1) entry) where
  window := by
    have written := shows.window.write le_rfl (by omega) n
    refine (written.shrink (Nat.le_succ _) (by simp only [setNode]; omega)).congr fun k low high => ?_
    have other : k ≠ s.first := by omega
    rw [Function.update_of_ne other, keepFrom, if_pos low]
  room := by
    have room := shows.room
    simp only [setNode]
    omega
  places := shows.places
  numbered k := by
    rw [keepFrom]
    split_ifs
    · exact shows.numbered k
    · rfl
  unacked k := by
    rw [keepFrom]
    split_ifs
    · exact shows.unacked k
    · rfl
  outside k beyond := by
    simp only [setNode] at beyond
    rw [keepFrom]
    split_ifs with above
    · exact shows.outside k (by omega)
    · rfl

theorem ackLoop_spec (count : ℕ) (retranDecr : ℕ) (shows : Shows s entry) (nonempty : s.length ≠ 0)
    (reaches : (s.first + count : ℤ) = lastAck + 1) :
    ∃ next, ackLoop lastAck count s.first s retranDecr = some (next,
        retranDecr + (List.range' s.first (min count s.length)).countP fun k => (entry k).retran) ∧
      next.first = s.first + min count s.length ∧ next.length = s.length - min count s.length ∧
      Shows next (keepFrom next.first entry) := by
  induction count generalizing s entry retranDecr with
  | zero =>
    refine ⟨s, by simp [ackLoop], by simp, by simp, ?_⟩
    rw [shows.keepFrom_first]
    exact shows
  | succ count ih =>
    have below : ((s.node s.first).seqNo : ℤ) ≤ lastAck := by
      rw [shows.first_seqNo nonempty]
      omega
    have fine : ¬(s.first ≠ s.first ∨ s.length = 0) := by simp [nonempty]
    have less : min (count + 1) s.length = min count (s.length - 1) + 1 := by omega
    rw [ackLoop, if_pos below, if_neg fine]
    simp only
    rw [shows.node_first nonempty, less, List.range'_succ, List.countP_cons]
    have dropped := shows.dropFirst nonempty (s.changed + 1) (entry s.first).acked
    have counted : (if (entry s.first).retran = true then retranDecr + 1 else retranDecr) =
        retranDecr + if (entry s.first).retran = true then 1 else 0 := by split_ifs <;> rfl
    rw [counted]
    by_cases gone : s.length - 1 = 0
    · rw [if_pos gone, show min count (s.length - 1) = 0 by omega]
      exact ⟨_, by simp, rfl, rfl, dropped⟩
    · rw [if_neg gone]
      obtain ⟨next, ran, first, length, shows'⟩ := ih _ dropped gone (by simp only [setNode_first]; omega)
      refine ⟨next, ran.trans ?_, ?_, ?_, ?_⟩
      · have same : (List.range' (s.first + 1) (min count (s.length - 1))).countP
            (fun k => (keepFrom (s.first + 1) entry k).retran) =
            (List.range' (s.first + 1) (min count (s.length - 1))).countP fun k => (entry k).retran := by
          refine List.countP_congr fun k member => ?_
          rw [keepFrom, if_pos (List.mem_range'_1.mp member).1]
        simp only [setNode_first, setNode_length, same]
        congr 2
        omega
      · simp only [first, setNode_first, setNode_length]
        omega
      · simp only [length, setNode_length]
        omega
      · rwa [keepFrom_keepFrom (by simp only [first, setNode_first]; omega)] at shows'

/-- The left edge moves up to `last_ack`, or to the end of the board. -/
theorem Shows.advance (shows : Shows s entry) (lastAck : ℤ) :
    ∃ next n, s.advance lastAck = some (next, (List.range' s.first n).countP fun k => (entry k).retran) ∧
      n = min (lastAck + 1 - s.first).toNat s.length ∧ next.first = s.first + n ∧ next.length = s.length - n ∧
      Shows next (keepFrom next.first entry) := by
  rw [ScoreBoard.advance]
  split_ifs with reached
  · rw [shows.first_seqNo reached.1] at reached ⊢
    obtain ⟨next, ran, first, length, shows'⟩ := ackLoop_spec (lastAck + 1 - s.first).toNat 0 shows
      reached.1 (show (s.first + (lastAck + 1 - s.first).toNat : ℤ) = lastAck + 1 by omega)
    rw [zero_add] at ran
    exact ⟨next, _, ran, rfl, first, length, shows'⟩
  · have none : min (lastAck + 1 - s.first).toNat s.length = 0 := by
      by_cases bare : s.length = 0
      · rw [bare, Nat.min_zero]
      · rw [shows.first_seqNo bare] at reached
        omega
    refine ⟨s, 0, by simp, none.symm, rfl, rfl, ?_⟩
    rw [shows.keepFrom_first]
    exact shows

end Advance

section Create

theorem Shows.blank_of_bare (shows : Shows s entry) (bare : s.length = 0) : entry = blank :=
  funext fun k => shows.outside k (by omega)

/-- The board that the SACK blocks of a header find. -/
theorem Shows.create (shows : Shows s entry) (begins : s.length ≠ 0 → (s.first : ℤ) = lastAck + 1)
    (least : -1 ≤ lastAck) (blocks : List SackBlock) :
    ∃ next, s.create lastAck blocks = some next ∧
      (blocks ≠ [] → next.length ≠ 0) ∧ (next.length ≠ 0 → (next.first : ℤ) = lastAck + 1) ∧
      s.length ≤ next.length ∧ Shows next entry ∧
      ∀ p : ℕ → Bool, ((List.range' next.first next.length).countP fun k => (entry k).retran && p k) =
        (List.range' s.first s.length).countP fun k => (entry k).retran && p k := by
  rw [ScoreBoard.create]
  by_cases bare : s.length = 0 ∧ blocks ≠ []
  · have places := shows.places
    have blank' := shows.blank_of_bare bare.1
    have window := (Ring.Window.empty s.sbsize s.sbn blank (lastAck + 1).toNat).extend (blank (lastAck + 1).toNat)
      (by omega) le_rfl rfl
    rw [if_pos bare]
    simp only
    rw [if_neg (by omega)]
    refine ⟨_, rfl, fun _ => Nat.succ_ne_zero _, fun _ => Int.toNat_of_nonneg (by omega), Nat.le_succ _,
      ⟨?_, by simp only [setNode_sbsize]; omega, places, shows.numbered, shows.unacked, fun k _ => congrFun blank' k⟩,
      fun p => ?_⟩
    · rw [blank', bare.1]
      exact window
    · rw [blank', bare.1, List.range'_zero, List.countP_nil, List.countP_eq_zero]
      exact fun k _ => Bool.false_ne_true
  · rw [if_neg bare]
    exact ⟨s, rfl, fun some_ none => bare ⟨none, some_⟩, begins, le_rfl, shows, fun _ => rfl⟩

end Create

section Extend

theorem Shows.appendLoop (shows : Shows s entry) (count : ℕ) (room : s.length + count < s.sbsize) :
    ∃ next, appendLoop count (s.first + s.length) s = some next ∧ next.first = s.first ∧
      next.length = s.length + count ∧ Shows next entry := by
  induction count generalizing s with
  | zero => exact ⟨s, rfl, rfl, rfl, shows⟩
  | succ count ih =>
    have window := shows.window.extend (blank (s.first + s.length)) (by omega) (by omega)
      (shows.outside (s.first + s.length) (by omega)).symm
    have shows' : Shows { s.setNode (s.first + s.length) (blank (s.first + s.length)) with
        length := s.length + 1, changed := s.changed + 1 } entry :=
      ⟨window, by simp only [setNode_sbsize]; omega, shows.places, shows.numbered, shows.unacked,
        fun k beyond => shows.outside k (by simp only [setNode_first] at beyond; omega)⟩
    obtain ⟨next, ran, first, length, shown⟩ := ih shows' (by simp only [setNode_sbsize]; omega)
    refine ⟨next, ?_, first, by rw [length]; simp only; omega, shown⟩
    rw [ScoreBoard.appendLoop, if_neg (by omega)]
    exact ran

/-- The board reaches at least to the end of the SACK block. -/
theorem Shows.extend (shows : Shows s entry) (nonempty : s.length ≠ 0) (begins : (s.first : ℤ) = lastAck + 1)
    (b : SackBlock) :
    ∃ next, s.extend lastAck b = some next ∧ next.first = s.first ∧
      next.length = max s.length (b.right - s.first).toNat ∧ Shows next entry := by
  rw [ScoreBoard.extend, shows.last_seqNo nonempty]
  split_ifs with beyond
  · obtain ⟨shows', first, length, fits⟩ := shows.makeRoom nonempty lastAck b.right
    have ends := shows'.last_seqNo (length ▸ nonempty)
    simp only [ends]
    have start : (s.makeRoom lastAck b.right).first + (s.makeRoom lastAck b.right).length - 1 + 1 =
        (s.makeRoom lastAck b.right).first + (s.makeRoom lastAck b.right).length := by omega
    obtain ⟨next, ran, first', length', shown⟩ :=
      shows'.appendLoop (b.right - ↑(s.first + s.length)).toNat (by omega)
    refine ⟨next, ?_, first'.trans first, by omega, shown⟩
    rw [start, first, length] at *
    convert ran using 2
    omega
  · exact ⟨s, rfl, rfl, by omega, shows⟩

end Extend

section Sack

/-- The entries from `f` on that the block covers are flagged. -/
def sackFrom (f : ℕ) (b : SackBlock) (entry : ℕ → ScoreBoardNode) (k : ℕ) : ScoreBoardNode :=
  if f ≤ k ∧ b.Covers k then (entry k).sacked else entry k

theorem Shows.sackOne (shows : Shows s entry) {i : ℕ} (low : s.first ≤ i) (high : i < s.first + s.length)
    (changed : ℕ) :
    Shows ({ s with changed := changed }.setNode i (s.node i).sacked)
      (Function.update entry i (entry i).sacked) := by
  rw [shows.node_eq low high]
  exact (shows.changed changed).set low high (shows.numbered i) (shows.unacked i)

theorem sackFrom_update {b : SackBlock} {i : ℕ} (covers : b.Covers i) :
    sackFrom (i + 1) b (Function.update entry i (entry i).sacked) =
      sackFrom i b entry := by
  funext k
  by_cases same : k = i
  · rw [same, sackFrom, if_neg (by omega), Function.update_self, sackFrom, if_pos ⟨le_rfl, covers⟩]
  · have shifted : i + 1 ≤ k ↔ i ≤ k := by omega
    simp only [sackFrom, Function.update_of_ne same, shifted]

theorem sackFrom_succ {b : SackBlock} {i : ℕ} (apart : ¬b.Covers i) : sackFrom (i + 1) b entry = sackFrom i b entry := by
  funext k
  by_cases same : k = i
  · rw [same, sackFrom, if_neg (by omega), sackFrom, if_neg fun both => apart both.2]
  · have shifted : i + 1 ≤ k ↔ i ≤ k := by omega
    simp only [sackFrom, shifted]

theorem Shows.sackLoop (shows : Shows s entry) (b : SackBlock) (count i retranDecr : ℕ) (low : s.first ≤ i)
    (high : i + count ≤ s.first + s.length) (ends : b.right ≤ i + count) :
    ∃ next, ScoreBoard.sackLoop b count i s retranDecr = (next, retranDecr +
        (List.range' i count).countP fun k => (entry k).retran && decide (b.Covers k)) ∧
      next.first = s.first ∧ next.length = s.length ∧ Shows next (sackFrom i b entry) := by
  induction count generalizing i s entry retranDecr with
  | zero =>
    have none : sackFrom i b entry = entry := by
      funext k
      rw [sackFrom, if_neg]
      rintro ⟨above, covers⟩
      have right := covers.2
      omega
    exact ⟨s, rfl, rfl, rfl, none.symm ▸ shows⟩
  | succ count ih =>
    have atI : s.node i = entry i := shows.node_eq low (by omega)
    have number : (s.node i).seqNo = i := by rw [atI, shows.numbered]
    rw [ScoreBoard.sackLoop, List.range'_succ, List.countP_cons]
    by_cases covers : b.Covers i
    · rw [if_pos (show b.Covers (s.node i).seqNo from number.symm ▸ covers)]
      obtain ⟨next, ran, first, length, shown⟩ := ih (shows.sackOne low (by omega)
        (if (s.node i).sackFlag = true then s.changed else s.changed + 1)) (i + 1)
        (if (s.node i).retran = true then retranDecr + 1 else retranDecr) (by simp only [setNode_first]; omega)
        (by simp only [setNode_first, setNode_length]; omega) (by omega)
      refine ⟨next, ran.trans ?_, first, length, ?_⟩
      · have same : (List.range' (i + 1) count).countP (fun k =>
            (Function.update entry i (entry i).sacked k).retran &&
              decide (b.Covers k)) =
            (List.range' (i + 1) count).countP fun k => (entry k).retran && decide (b.Covers k) := by
          refine List.countP_congr fun k member => ?_
          have other : k ≠ i := by
            have above := (List.mem_range'_1.mp member).1
            omega
          rw [Function.update_of_ne other]
        rw [same, atI, decide_eq_true covers, Bool.and_true]
        split_ifs
        · congr 1
          omega
        · rfl
      · rwa [sackFrom_update covers] at shown
    · rw [if_neg (show ¬b.Covers (s.node i).seqNo from number.symm ▸ covers)]
      obtain ⟨next, ran, first, length, shown⟩ := ih shows (i + 1) retranDecr (by omega) (by omega) (by omega)
      refine ⟨next, ran.trans ?_, first, length, ?_⟩
      · rw [decide_eq_false covers, Bool.and_false]
        rfl
      · rwa [sackFrom_succ covers] at shown

end Sack

section Blocks

/-- Counting what has one of two exclusive properties. -/
theorem countP_or_of_disjoint {l : List ℕ} {p q r : ℕ → Bool} (either : ∀ k ∈ l, r k = (p k || q k))
    (apart : ∀ k ∈ l, ¬(p k = true ∧ q k = true)) : l.countP r = l.countP p + l.countP q := by
  induction l with
  | nil => rfl
  | cons k l ih =>
    obtain ⟨eitherK, either⟩ := List.forall_mem_cons.mp either
    obtain ⟨apartK, apart⟩ := List.forall_mem_cons.mp apart
    rw [List.countP_cons, List.countP_cons, List.countP_cons, ih either apart, eitherK]
    cases inP : p k <;> cases inQ : q k
    · rfl
    · simp only [Bool.false_or, ↓reduceIte, Bool.false_eq_true]
      omega
    · simp only [Bool.true_or, ↓reduceIte, Bool.false_eq_true]
      omega
    · exact absurd ⟨inP, inQ⟩ apartK

theorem countP_range'_extend {start n m : ℕ} {p : ℕ → Bool} (more : n ≤ m)
    (none : ∀ k, start + n ≤ k → p k = false) : (List.range' start m).countP p = (List.range' start n).countP p := by
  have rest : (List.range' (start + n) (m - n)).countP p = 0 := by
    refine List.countP_eq_zero.mpr fun k member => ?_
    rw [none k (List.mem_range'_1.mp member).1]
    decide
  rw [show m = n + (m - n) by omega, ← List.range'_append_1, List.countP_append, rest, add_zero]

/-- Numbers after the end of the board count for nothing. -/
theorem Shows.not_retran (shows : Shows s entry) (p : Bool) {k : ℕ} (beyond : s.first + s.length ≤ k) :
    ((entry k).retran && p) = false := by
  rw [shows.outside k (by omega)]
  rfl

theorem sackFrom_retran {f k : ℕ} {b : SackBlock} (above : f ≤ k) :
    (sackFrom f b entry k).retran = ((entry k).retran && !decide (b.Covers k)) := by
  rw [sackFrom]
  by_cases covers : b.Covers k
  · rw [if_pos ⟨above, covers⟩, decide_eq_true covers, Bool.not_true, Bool.and_false]
    rfl
  · rw [if_neg fun both => covers both.2, decide_eq_false covers, Bool.not_false, Bool.and_true]

theorem sackFrom_sackFlag {f k : ℕ} {b : SackBlock} (above : f ≤ k) :
    (sackFrom f b entry k).sackFlag = ((entry k).sackFlag || decide (b.Covers k)) := by
  rw [sackFrom]
  by_cases covers : b.Covers k
  · rw [if_pos ⟨above, covers⟩, decide_eq_true covers, Bool.or_true]
    rfl
  · rw [if_neg fun both => covers both.2, decide_eq_false covers, Bool.or_false]

/-- What the block covers, and what the later blocks cover of the rest. -/
theorem countP_blocks (f count : ℕ) (entry : ℕ → ScoreBoardNode) (b : SackBlock) (blocks : List SackBlock) :
    ((List.range' f count).countP fun k => (entry k).retran && decide (∃ c ∈ b :: blocks, c.Covers k)) =
      ((List.range' f count).countP fun k => (entry k).retran && decide (b.Covers k)) +
        (List.range' f count).countP fun k => (sackFrom f b entry k).retran && decide (∃ c ∈ blocks, c.Covers k) := by
  refine countP_or_of_disjoint (fun k member => ?_) fun k member both => ?_
  · rw [sackFrom_retran (List.mem_range'_1.mp member).1]
    simp only [List.exists_mem_cons_iff]
    by_cases covers : b.Covers k <;> simp [covers]
  · rw [sackFrom_retran (List.mem_range'_1.mp member).1] at both
    by_cases covers : b.Covers k <;> simp [covers] at both

/-- All SACK blocks of a header together. -/
theorem Shows.sackBlocks (shows : Shows s entry) (blocks : List SackBlock)
    (begins : blocks ≠ [] → s.length ≠ 0 ∧ (s.first : ℤ) = lastAck + 1) (retranDecr : ℕ) :
    ∃ next entry', ScoreBoard.sackBlocks lastAck blocks s retranDecr = some (next, retranDecr +
        (List.range' s.first s.length).countP fun k => (entry k).retran && decide (∃ b ∈ blocks, b.Covers k)) ∧
      next.first = s.first ∧ s.length ≤ next.length ∧ (next.length ≠ 0 → s.length ≠ 0) ∧
      (∀ b ∈ blocks, b.right ≤ lastAck + 1 + next.length) ∧ Shows next entry' ∧ ∀ k : ℕ, lastAck < k →
        ((entry' k).sackFlag = true ↔ (entry k).sackFlag = true ∨ ∃ b ∈ blocks, b.Covers k) ∧
          ((entry' k).retran = true ↔ (entry k).retran = true ∧ ¬∃ b ∈ blocks, b.Covers k) := by
  induction blocks generalizing s entry retranDecr with
  | nil => exact ⟨s, entry, by simp [ScoreBoard.sackBlocks], rfl, le_rfl, id, by simp, shows, by simp⟩
  | cons b blocks ih =>
    obtain ⟨nonempty, begins⟩ := begins (List.cons_ne_nil b blocks)
    obtain ⟨wide, ran, first, length, shown⟩ := shows.extend nonempty begins b
    have wideNonempty : wide.length ≠ 0 := by omega
    have number : (wide.node wide.first).seqNo = s.first := (shown.first_seqNo wideNonempty).trans first
    obtain ⟨flagged, ran', first', length', shown'⟩ := shown.sackLoop b (b.right - s.first).toNat s.first retranDecr
      first.le (by omega) (by omega)
    obtain ⟨next, entry', ran'', first'', longer, _, reach, shown'', flags⟩ :=
      ih shown' (fun _ => ⟨by omega, by omega⟩) (retranDecr +
        (List.range' s.first (b.right - s.first).toNat).countP fun k => (entry k).retran && decide (b.Covers k))
    rw [first'.trans first, length'] at ran''
    refine ⟨next, entry', ?_, by omega, by omega, fun _ => nonempty, ?_, shown'', fun k above => ?_⟩
    · have own : (List.range' s.first wide.length).countP (fun k => (entry k).retran && decide (b.Covers k)) =
          (List.range' s.first (b.right - s.first).toNat).countP fun k => (entry k).retran && decide (b.Covers k) := by
        refine countP_range'_extend (by omega) fun k beyond => ?_
        have apart : ¬b.Covers k := fun covers => by
          have right := covers.2
          omega
        rw [decide_eq_false apart, Bool.and_false]
      have whole : (List.range' s.first wide.length).countP
          (fun k => (entry k).retran && decide (∃ c ∈ b :: blocks, c.Covers k)) =
          (List.range' s.first s.length).countP fun k => (entry k).retran && decide (∃ c ∈ b :: blocks, c.Covers k) :=
        countP_range'_extend (by omega) fun k beyond => shows.not_retran _ beyond
      rw [ScoreBoard.sackBlocks, ran, ← whole, countP_blocks, own]
      simp only [Option.bind_eq_bind, Option.bind_some, number, ran', ran'', add_assoc]
    · exact List.forall_mem_cons.mpr ⟨by omega, reach⟩
    · obtain ⟨sack, retran⟩ := flags k above
      rw [sack, retran, sackFrom_sackFlag (by omega), sackFrom_retran (by omega)]
      simp only [List.exists_mem_cons_iff, Bool.or_eq_true, Bool.and_eq_true, decide_eq_true_eq, Bool.not_eq_true',
        decide_eq_false_iff_not, not_or, or_assoc, and_assoc, and_self]

end Blocks

section Update

/-- The left edge after the cumulative ACK: one above it, unless the board is empty. -/
theorem Shows.acked (shows : Shows s entry) {highest : ℤ} (begins : s.length ≠ 0 → (s.first : ℤ) = highest + 1)
    (ordered : highest ≤ lastAck) :
    ∃ next n, s.advance lastAck = some (next, (List.range' s.first n).countP fun k => (entry k).retran) ∧
      n ≤ s.length ∧ (n ≠ 0 → (s.first + n : ℤ) ≤ lastAck + 1) ∧ next.first = s.first + n ∧
      next.length = s.length - n ∧ (next.length ≠ 0 → (next.first : ℤ) = lastAck + 1) ∧
      highest + s.length ≤ lastAck + next.length ∧ Shows next (keepFrom next.first entry) ∧
      ∀ k : ℕ, lastAck < k → keepFrom next.first entry k = entry k := by
  obtain ⟨next, n, advanced, moved, first, length, shown⟩ := shows.advance lastAck
  refine ⟨next, n, advanced, by omega, by omega, first, length, fun nonempty => ?_, ?_, shown, fun k above => ?_⟩
  · have begins := begins (by omega)
    omega
  · by_cases bare : s.length = 0
    · omega
    · have begins := begins bare
      omega
  · rw [keepFrom]
    split_ifs with kept
    · rfl
    · by_cases bare : s.length = 0
      · rw [shows.blank_of_bare bare]
      · have begins := begins bare
        omega

/-- What the ACK takes off the board, and what the SACK blocks cover of the rest. -/
theorem countP_acked (entry : ℕ → ScoreBoardNode) {n length first : ℕ} (p : ℕ → Prop) [DecidablePred p] (within : n ≤ length)
    (below : n ≠ 0 → (first + n : ℤ) ≤ lastAck + 1) (above : length - n ≠ 0 → ((first + n : ℕ) : ℤ) = lastAck + 1) :
    ((List.range' first length).countP fun k => (entry k).retran && decide ((k : ℤ) ≤ lastAck ∨ p k)) =
      ((List.range' first n).countP fun k => (entry k).retran) +
        (List.range' (first + n) (length - n)).countP fun k => (keepFrom (first + n) entry k).retran && decide (p k) := by
  rw [show length = n + (length - n) by omega, ← List.range'_append_1, List.countP_append, Nat.add_sub_cancel_left]
  congr 1
  · refine List.countP_congr fun k member => ?_
    have bounds := List.mem_range'_1.mp member
    have below := below (by omega)
    rw [decide_eq_true (Or.inl (show (k : ℤ) ≤ lastAck by omega)), Bool.and_true]
  · refine List.countP_congr fun k member => ?_
    have bounds := List.mem_range'_1.mp member
    have above := above (by omega)
    rw [keepFrom, if_pos bounds.1]
    simp only [show ¬(k : ℤ) ≤ lastAck by omega, false_or]

/-- The board after `UpdateScoreBoard`, and the number of retransmitted entries that the ACK or a SACK block covers. -/
theorem Shows.updateScoreBoard (shows : Shows s entry) {highest : ℤ} (begins : s.length ≠ 0 → (s.first : ℤ) = highest + 1)
    (ordered : highest ≤ lastAck) (least : -1 ≤ lastAck) (blocks : List SackBlock) :
    ∃ next entry', s.updateScoreBoard lastAck blocks = some (next, (List.range' s.first s.length).countP fun k =>
        (entry k).retran && decide ((k : ℤ) ≤ lastAck ∨ ∃ b ∈ blocks, b.Covers k)) ∧
      (next.length ≠ 0 → (next.first : ℤ) = lastAck + 1) ∧ highest + s.length ≤ lastAck + next.length ∧
      (∀ b ∈ blocks, b.right ≤ lastAck + 1 + next.length) ∧ Shows next entry' ∧ ∀ k : ℕ, lastAck < k →
        ((entry' k).sackFlag = true ↔ (entry k).sackFlag = true ∨ ∃ b ∈ blocks, b.Covers k) ∧
          ((entry' k).retran = true ↔ (entry k).retran = true ∧ ¬∃ b ∈ blocks, b.Covers k) := by
  obtain ⟨acked, n, advanced, within, bound, first, length, begins', longer, shown, same⟩ :=
    (shows.changed 0).acked begins ordered
  obtain ⟨board, made, hasBoard, boardBegins, wider, shownBoard, counted⟩ := shown.create begins' least blocks
  obtain ⟨next, entry', ran, first', longer', old, reach, shown', flags⟩ :=
    shownBoard.sackBlocks blocks (fun some_ => ⟨hasBoard some_, boardBegins (hasBoard some_)⟩)
      ((List.range' s.first n).countP fun k => (entry k).retran)
  simp only at advanced within bound first length longer
  refine ⟨next, entry', ?_, fun nonempty => ?_, by omega, reach, shown', fun k above => ?_⟩
  · have total := countP_acked entry (fun k => ∃ b ∈ blocks, b.Covers k) within bound
      (fun rest => by rw [← first]; exact begins' (by omega))
    rw [total, ← first, ← length, ← counted]
    simp only [ScoreBoard.updateScoreBoard, advanced, made, ran, Option.bind_eq_bind, Option.bind_some]
  · rw [first']
    exact boardBegins (old nonempty)
  · rw [← same k above]
    exact flags k above

end Update

/-- A sequence number that has been sacked or retransmitted. -/
def Told.Done (told : Told) (seq : ℤ) : Prop := told.Covers seq ∨ seq ∈ told.marked

/-- The board stands for what it has been told. -/
structure Holds (told : Told) (s : ScoreBoard) (entry : ℕ → ScoreBoardNode) : Prop where
  shows : Shows s entry
  begins : s.length ≠ 0 → (s.first : ℤ) = told.highest + 1
  reach : ∀ b ∈ told.blocks, b.right ≤ told.highest + 1 + s.length
  marks : ∀ k ∈ told.marked, k < told.highest + 1 + s.length
  sacked : ∀ k : ℕ, told.highest < k → ((entry k).sackFlag = true ↔ told.Covers k)
  flagged : ∀ k : ℕ, told.highest < k →
    ((entry k).sackFlag = true ∨ (entry k).retran = true ↔ told.Done k)

section Runs

variable {told : Told}

theorem Holds.nothing (sbn fresh : ℕ → ScoreBoardNode) {sz : ℕ} (places : 2 ≤ sz) :
    Holds Told.nothing (make sbn sz fresh) blank where
  shows := ⟨Ring.Window.empty sz sbn blank 0, by simp only [make]; omega, places, fun _ => rfl, fun _ => rfl,
    fun _ _ => rfl⟩
  begins nonempty := absurd rfl nonempty
  reach _ member := absurd member List.not_mem_nil
  marks _ member := absurd member List.not_mem_nil
  sacked k _ := by simp [blank, Told.Covers, Told.nothing]
  flagged k _ := by simp [blank, Told.Done, Told.Covers, Told.nothing]

theorem Holds.cleared (holds : Holds told s entry) : Holds (told.tell .clearScoreBoard) s.clearScoreBoard blank where
  shows := ⟨Ring.Window.empty s.sbsize s.sbn blank s.first, by
    have room := holds.shows.room
    simp only [clearScoreBoard]
    omega, holds.shows.places, fun _ => rfl, fun _ => rfl, fun _ _ => rfl⟩
  begins nonempty := absurd rfl nonempty
  reach _ member := absurd member List.not_mem_nil
  marks _ member := absurd member List.not_mem_nil
  sacked k _ := by simp [blank, Told.Covers, Told.tell]
  flagged k _ := by simp [blank, Told.Done, Told.Covers, Told.tell]

theorem Told.covers_update {blocks : List SackBlock} {k : ℤ} :
    (told.tell (.updateScoreBoard lastAck blocks)).Covers k ↔ told.Covers k ∨ ∃ b ∈ blocks, b.Covers k := by
  simp [Told.Covers, Told.tell, or_and_right, exists_or]

theorem Holds.updated (holds : Holds told s entry) (ordered : told.highest ≤ lastAck) (least : -1 ≤ lastAck)
    (blocks : List SackBlock) :
    ∃ next entry', s.updateScoreBoard lastAck blocks = some (next, (List.range' s.first s.length).countP fun k =>
        (entry k).retran && decide ((k : ℤ) ≤ lastAck ∨ ∃ b ∈ blocks, b.Covers k)) ∧
      Holds (told.tell (.updateScoreBoard lastAck blocks)) next entry' := by
  obtain ⟨next, entry', ran, begins, longer, reach, shows, flags⟩ :=
    holds.shows.updateScoreBoard holds.begins ordered least blocks
  have highest : max told.highest lastAck = lastAck := max_eq_right ordered
  have newest : (told.tell (.updateScoreBoard lastAck blocks)).highest = lastAck := highest
  refine ⟨next, entry', ran, shows, ?_, fun b member => ?_, fun k member => ?_, fun k above => ?_, fun k above => ?_⟩
  · rw [newest]
    exact begins
  · rw [newest]
    rcases List.mem_append.mp member with old | new
    · have reached := holds.reach b old
      omega
    · exact reach b new
  · have marked := holds.marks k member
    omega
  · rw [newest] at above
    rw [(flags k above).1, holds.sacked k (ordered.trans_lt above), Told.covers_update]
  · rw [newest] at above
    have old := holds.flagged k (ordered.trans_lt above)
    rw [(flags k above).1, (flags k above).2, Told.Done, Told.covers_update]
    by_cases covers : ∃ b ∈ blocks, b.Covers k
    · exact iff_of_true (Or.inl (Or.inr covers)) (Or.inl (Or.inr covers))
    · rw [or_iff_left covers, or_iff_left covers, and_iff_left covers]
      exact old

theorem Holds.marked (holds : Holds told s entry) {k : ℕ} (low : s.first ≤ k) (high : k < s.first + s.length)
    (sndNxt : Option ℤ) :
    ∃ entry', Holds (told.tell (.markRetran k sndNxt)) (s.markRetran k sndNxt) entry' := by
  have begins := holds.begins (by omega)
  have shows := holds.shows.set low high
    (n := { s.node k with retran := true, sndNxt := sndNxt.getD (s.node k).sndNxt })
    (by rw [holds.shows.node_eq low high]; exact holds.shows.numbered k)
    (by rw [holds.shows.node_eq low high]; exact holds.shows.unacked k)
  refine ⟨_, shows, holds.begins, holds.reach, fun j member => ?_, fun j above => ?_, fun j above => ?_⟩
  · rcases List.mem_append.mp member with old | new
    · exact holds.marks j old
    · rw [List.mem_singleton.mp new]
      simp only [Told.tell, markRetran, setNode_length]
      omega
  · rw [← show _ ↔ (told.tell (.markRetran k sndNxt)).Covers j from holds.sacked j above]
    by_cases same : j = k
    · rw [same, Function.update_self, holds.shows.node_eq low high]
    · rw [Function.update_of_ne same]
  · have old := holds.flagged j above
    by_cases same : j = k
    · rw [same, Function.update_self]
      exact iff_of_true (Or.inr rfl) (Or.inr (List.mem_append_right _ (List.mem_singleton_self _)))
    · have other : ((j : ℤ) = k) = False := eq_false fun equal => same (Int.ofNat.inj equal)
      rw [Function.update_of_ne same, old]
      simp only [Told.Done, Told.tell, Told.Covers, List.mem_append, List.mem_singleton, other, or_false]

theorem Holds.step {op : Op} (holds : Holds told s entry) (onBoard : OnBoard s op)
    (ordered : ∀ lastAck ∈ op.lastAck?, told.highest ≤ lastAck ∧ -1 ≤ lastAck) :
    ∃ next out entry', machine.step s op = some (next, out) ∧ Holds (told.tell op) next entry' := by
  cases op with
  | updateScoreBoard lastAck blocks =>
    obtain ⟨above, least⟩ := ordered lastAck rfl
    obtain ⟨next, entry', ran, holds'⟩ := holds.updated above least blocks
    exact ⟨next, _, entry', congrArg (Option.map fun out : ScoreBoard × ℕ => (out.1, some (out.2 : ℤ))) ran, holds'⟩
  | getNextRetran => exact ⟨s, _, entry, rfl, holds⟩
  | markRetran retranSeqno sndNxt =>
    obtain ⟨low, high⟩ := onBoard
    obtain ⟨k, rfl⟩ := Int.eq_ofNat_of_zero_le (show 0 ≤ retranSeqno by omega)
    obtain ⟨entry', holds'⟩ := holds.marked (show s.first ≤ k by omega) (by omega) sndNxt
    exact ⟨_, _, entry', rfl, holds'⟩
  | clearScoreBoard => exact ⟨_, _, blank, rfl, holds.cleared⟩

/-- The ACKs of the rest of a run are no lower than the ones before. -/
theorem Told.highest_tell {op : Op} {ops : List Op}
    (ordered : (told.highest :: (op :: ops).filterMap Op.lastAck?).Pairwise (· ≤ ·)) :
    ((told.tell op).highest :: ops.filterMap Op.lastAck?).Pairwise (· ≤ ·) := by
  cases op with
  | updateScoreBoard lastAck blocks =>
    obtain ⟨above, rest⟩ := List.pairwise_cons.mp ordered
    have highest : (told.tell (.updateScoreBoard lastAck blocks)).highest = lastAck :=
      max_eq_right (above lastAck List.mem_cons_self)
    rw [highest]
    exact rest
  | getNextRetran => exact ordered
  | markRetran retranSeqno sndNxt => exact ordered
  | clearScoreBoard => exact ordered

theorem Holds.run {ops : List Op} (holds : Holds told s entry) (along : machine.Along OnBoard s ops)
    (ordered : (told.highest :: ops.filterMap Op.lastAck?).Pairwise (· ≤ ·))
    (least : ∀ lastAck ∈ ops.filterMap Op.lastAck?, -1 ≤ lastAck) :
    ∃ last outs entry', machine.run s ops = some (last, outs) ∧ Holds (ops.foldl Told.tell told) last entry' := by
  induction ops generalizing s entry told with
  | nil => exact ⟨s, [], entry, rfl, holds⟩
  | cons op ops ih =>
    have first : ∀ lastAck ∈ op.lastAck?, lastAck ∈ (op :: ops).filterMap Op.lastAck? := fun lastAck given =>
      List.mem_filterMap.mpr ⟨op, List.mem_cons_self, given⟩
    obtain ⟨next, out, entry', taken, holds'⟩ := holds.step along.head fun lastAck given =>
      ⟨(List.pairwise_cons.mp ordered).1 lastAck (first lastAck given), least lastAck (first lastAck given)⟩
    obtain ⟨last, outs, entry'', ran, holds''⟩ := ih holds' (along.tail taken) (Told.highest_tell ordered)
      fun lastAck member => least lastAck (((List.sublist_cons_self op ops).filterMap Op.lastAck?).subset member)
    exact ⟨last, out :: outs, entry'', by rw [Machine.run_cons taken, ran]; rfl, holds''⟩

/-- What there is to say of the board in every state that a run reaches. -/
structure Correct (told : Told) (s : ScoreBoard) : Prop where
  stored : ∀ k, s.first ≤ k → k < s.first + s.length → (s.sbn (k % s.sbsize)).seqNo = k
  above : s.length ≠ 0 → told.highest < s.first
  room : s.length < s.sbsize
  resized : s.length ≠ 0 → ∀ sackRight,
    (s.makeRoom told.highest sackRight).length < (s.makeRoom told.highest sackRight).sbsize
  sacked : ∀ k, s.first ≤ k → k < s.first + s.length → ((s.sbn (k % s.sbsize)).sackFlag = true ↔ told.Covers k)
  retran : (s.getNextRetran = -1 ∧ ∀ k, s.first ≤ k → k < s.first + s.length → told.Done k) ∨
    ∃ k, s.first ≤ k ∧ k < s.first + s.length ∧ s.getNextRetran = k ∧ ¬told.Done k ∧
      ∀ j, s.first ≤ j → j < k → told.Done j
  decr : ∀ lastAck blocks, told.highest ≤ lastAck → -1 ≤ lastAck → ∃ next, s.updateScoreBoard lastAck blocks =
    some (next, (List.range' s.first s.length).countP fun k =>
      (s.node k).retran && decide ((k : ℤ) ≤ lastAck ∨ ∃ b ∈ blocks, b.Covers k))

/-- The loop finds the least entry that is not done. -/
theorem Holds.retranLoop (holds : Holds told s entry) (nonempty : s.length ≠ 0) (count i : ℕ) (low : s.first ≤ i)
    (high : i + count ≤ s.first + s.length) :
    (s.retranLoop count i = -1 ∧ ∀ k, i ≤ k → k < i + count → told.Done k) ∨
      ∃ k, i ≤ k ∧ k < i + count ∧ s.retranLoop count i = k ∧ ¬told.Done k ∧ ∀ j, i ≤ j → j < k → told.Done j := by
  induction count generalizing i with
  | zero => exact Or.inl ⟨rfl, fun k above below => absurd (above.trans_lt below) (lt_irrefl i)⟩
  | succ count ih =>
    have begins := holds.begins nonempty
    have flagged := holds.flagged i (by omega)
    rw [ScoreBoard.retranLoop, holds.shows.node_eq low (by omega), holds.shows.unacked i]
    by_cases done : told.Done i
    · have skip : (!false && !(entry i).sackFlag && !(entry i).retran) = false := by
        rcases flagged.mpr done with sack | retran
        · simp [sack]
        · simp [retran]
      rw [skip, if_neg Bool.false_ne_true]
      have split : ∀ j, i ≤ j → j = i ∨ i + 1 ≤ j := fun j above => by omega
      rcases ih (i + 1) (by omega) (by omega) with ⟨missing, all⟩ | ⟨k, above, below, found, undone, earlier⟩
      · refine Or.inl ⟨missing, fun j aboveJ belowJ => ?_⟩
        exact (split j aboveJ).elim (fun same => same ▸ done) fun later => all j later (by omega)
      · refine Or.inr ⟨k, by omega, by omega, found, undone, fun j aboveJ belowJ => ?_⟩
        exact (split j aboveJ).elim (fun same => same ▸ done) fun later => earlier j later belowJ
    · have clear := not_or.mp fun either => done (flagged.mp either)
      have found : (!false && !(entry i).sackFlag && !(entry i).retran) = true := by simp [clear.1, clear.2]
      rw [found, if_pos rfl]
      exact Or.inr ⟨i, le_rfl, by omega, rfl, done, fun j above below => absurd (above.trans_lt below) (lt_irrefl i)⟩

theorem Holds.correct (holds : Holds told s entry) : Correct told s where
  stored k low high := by
    rw [holds.shows.window.stored k low high, holds.shows.numbered]
  above nonempty := by
    have begins := holds.begins nonempty
    omega
  room := holds.shows.room
  resized nonempty sackRight := (holds.shows.makeRoom nonempty told.highest sackRight).1.room
  sacked k low high := by
    have begins := holds.begins (by omega)
    rw [holds.shows.window.stored k low high, holds.sacked k (by omega)]
  retran := by
    by_cases bare : s.length = 0
    · exact Or.inl ⟨if_neg (not_not.mpr bare), fun k low high => by omega⟩
    · rw [getNextRetran, if_pos bare, holds.shows.first_seqNo bare]
      exact holds.retranLoop bare s.length s.first le_rfl le_rfl
  decr lastAck blocks ordered least := by
    obtain ⟨next, entry', ran, _⟩ := holds.updated ordered least blocks
    refine ⟨next, ran.trans ?_⟩
    congr 2
    refine List.countP_congr fun k member => ?_
    have bounds := List.mem_range'_1.mp member
    rw [holds.shows.node_eq bounds.1 bounds.2]

end Runs

/-- No run aborts, and the board is right in every state. -/
theorem board_correct (sbn fresh : ℕ → ScoreBoardNode) (sz : ℕ) (places : 2 ≤ sz) (ops : List Op)
    (ordered : (-1 :: ops.filterMap Op.lastAck?).Pairwise (· ≤ ·))
    (along : machine.Along OnBoard (make sbn sz fresh) ops) :
    ∃ last outs, machine.run (make sbn sz fresh) ops = some (last, outs) ∧
      Correct (ops.foldl Told.tell Told.nothing) last := by
  obtain ⟨least, rest⟩ := List.pairwise_cons.mp ordered
  have below : (Told.nothing.highest :: ops.filterMap Op.lastAck?).Pairwise (· ≤ ·) :=
    List.pairwise_cons.mpr ⟨fun lastAck member => (show (-2 : ℤ) ≤ -1 by decide).trans (least lastAck member), rest⟩
  obtain ⟨last, outs, entry, ran, holds⟩ := (Holds.nothing sbn fresh places).run along below least
  exact ⟨last, outs, ran, holds.correct⟩

theorem board_correct_sample : ∃ last outs,
    machine.run (make (fun _ => blank 0) 4 fun _ => blank 7)
        [.updateScoreBoard 0 [⟨3, 6⟩], .markRetran 1 none, .updateScoreBoard 1 [⟨8, 9⟩]] = some (last, outs) ∧
      Correct ⟨1, [⟨3, 6⟩, ⟨8, 9⟩], [1]⟩ last :=
  board_correct (fun _ => blank 0) (fun _ => blank 7) 4 (by decide)
    [.updateScoreBoard 0 [⟨3, 6⟩], .markRetran 1 none, .updateScoreBoard 1 [⟨8, 9⟩]] (by decide) (by decide +kernel)

/-- An entry that was retransmitted after it had been sacked counts when it is sacked once more. -/
theorem resacked_retran : ∃ s outs,
    machine.run (make (fun _ => blank 0) 64 fun _ => blank 0) [.updateScoreBoard 0 [⟨2, 3⟩], .markRetran 2 none] =
        some (s, outs) ∧
      machine.Along OnBoard (make (fun _ => blank 0) 64 fun _ => blank 0)
        [.updateScoreBoard 0 [⟨2, 3⟩], .markRetran 2 none] ∧
      (s.updateScoreBoard 0 [⟨2, 3⟩]).map Prod.snd = some 1 ∧
      (List.range' s.first s.length).countP (fun k => (s.node k).retran && !(s.node k).sackFlag &&
        decide ((k : ℤ) ≤ 0 ∨ (⟨2, 3⟩ : SackBlock).Covers k)) = 0 :=
  ⟨((machine.run (make (fun _ => blank 0) 64 fun _ => blank 0)
      [.updateScoreBoard 0 [⟨2, 3⟩], .markRetran 2 none]).get (by decide +kernel)).1,
    ((machine.run (make (fun _ => blank 0) 64 fun _ => blank 0)
      [.updateScoreBoard 0 [⟨2, 3⟩], .markRetran 2 none]).get (by decide +kernel)).2,
    (Option.some_get _).symm, by decide +kernel, by decide +kernel, by decide +kernel⟩

end ScoreBoard

end Ns2
