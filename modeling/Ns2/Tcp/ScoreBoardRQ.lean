import Ns2.Tcp.ReassemblyRun
import Ns2.Tcp.ScoreBoard

namespace Ns2

open Intervals (Separated Touches cover hullLo hullHi)

/-- `ScoreBoardRQ`; `sack_min` is the variable that the queue's `rcv_nxt_` refers to. -/
structure ScoreBoardRQ where
  hSeqno : ℤ
  changed : Bool
  rq : ReassemblyQueue
deriving DecidableEq

namespace ScoreBoardRQ

open ScoreBoard (Op Told)

def make : ScoreBoardRQ := ⟨-1, false, ReassemblyQueue.make (-1)⟩

def sackMin (s : ScoreBoardRQ) : ℤ := s.rq.rcvNxt

def clearScoreBoard (s : ScoreBoardRQ) : ScoreBoardRQ := { s with hSeqno := -1, rq := s.rq.clear }

def markRetran (s : ScoreBoardRQ) (retranSeqno : ℤ) : ScoreBoardRQ :=
  if retranSeqno ≥ s.hSeqno then { s with hSeqno := retranSeqno + 1 } else s

def getNextRetran (s : ScoreBoardRQ) : ScoreBoardRQ × ℤ :=
  let s := if s.hSeqno < s.sackMin then { s with hSeqno := s.sackMin } else s
  let (seq, fcnt, _) := s.rq.nexthole s.hSeqno
  if seq > 0 then
    if fcnt ≤ 0 then (s, -1)
    else if seq > s.hSeqno then ({ s with hSeqno := seq }, seq) else (s, seq)
  else (s, -1)

/-- The loop of `UpdateScoreBoard`: each block goes to `add` with no flags. -/
def sacking : Machine ReassemblyQueue SackBlock TcpFlag := ⟨fun rq b => rq.add b.left b.right 0 0⟩

/-- The new `sack_min` of `UpdateScoreBoard`, and whether the queue was cleared to it. -/
def raise (rq : ReassemblyQueue) (lastAck : ℤ) : ReassemblyQueue × Bool :=
  if rq.rcvNxt ≤ lastAck then
    let rq := { rq with rcvNxt := lastAck + 1 }
    if rq.fifo ≠ [] then (rq.cleartonxt.1, true) else (rq, false)
  else (rq, false)

def updateScoreBoard (s : ScoreBoardRQ) (lastAck : ℤ) (blocks : List SackBlock) : Option ScoreBoardRQ := do
  let (raised, changed) := raise s.rq lastAck
  let (rq, _) ← sacking.run raised blocks
  return { s with changed := changed || s.rq.total ≠ rq.total, rq := rq }

/-- The answer is that of `GetNextRetran`. -/
def machine : Machine ScoreBoardRQ Op (Option ℤ) where
  step s
    | .updateScoreBoard lastAck blocks => (s.updateScoreBoard lastAck blocks).map fun next => (next, none)
    | .getNextRetran => some (s.getNextRetran.1, some s.getNextRetran.2)
    | .markRetran retranSeqno _ => some (s.markRetran retranSeqno, none)
    | .clearScoreBoard => some (s.clearScoreBoard, none)

def Proper : Op → Prop
  | .updateScoreBoard _ blocks => ∀ b ∈ blocks, b.left < b.right
  | _ => True

section Fixes

open ReassemblyQueue (EndsAtHead Exact)

/-- The start and the end of the block that `add` compares with `rcv_nxt_`: the head of the
list, if the segment ends there and does not touch it, else the merged block. -/
def pivot (l : List SegInfo) (start fin : ℤ) : ℤ × ℤ :=
  match l with
  | [] => (start, fin)
  | head :: _ =>
    if EndsAtHead l start fin ∧ head.endseq < start then (head.startseq, head.endseq)
    else (hullLo SegInfo.startseq SegInfo.endseq start fin l, hullHi SegInfo.startseq SegInfo.endseq start fin l)

/-- The block is in the queue already, or the one it is compared by starts above
`sack_min` or ends at it. -/
def FixesMin (rq : ReassemblyQueue) (b : SackBlock) : Prop :=
  Exact rq.fifo b.left b.right ∨ rq.rcvNxt < (pivot rq.fifo b.left b.right).1 ∨
    (pivot rq.fifo b.left b.right).2 = rq.rcvNxt

instance FixesMin.decidable (rq : ReassemblyQueue) (b : SackBlock) : Decidable (FixesMin rq b) :=
  inferInstanceAs (Decidable (_ ∨ _))

def KeepsMin (s : ScoreBoardRQ) : Op → Prop
  | .updateScoreBoard lastAck blocks => sacking.Along FixesMin (raise s.rq lastAck).1 blocks
  | _ => True

instance KeepsMin.decidable (s : ScoreBoardRQ) : ∀ op, Decidable (KeepsMin s op)
  | .updateScoreBoard lastAck blocks => inferInstanceAs (Decidable (sacking.Along FixesMin (raise s.rq lastAck).1 blocks))
  | .getNextRetran => isTrue trivial
  | .markRetran _ _ => isTrue trivial
  | .clearScoreBoard => isTrue trivial

end Fixes

section Add

open ReassemblyQueue (EndsAtHead Exact Merged Valid reached)

variable {rq next : ReassemblyQueue} {start fin : ℤ} {tiflags : TcpFlag} {m : SegInfo}

theorem reached_eq_iff {nxt : ℤ} : reached nxt start fin = nxt ↔ nxt < start ∨ fin = nxt := by
  rw [reached]
  split_ifs with here <;> omega

/-- The head of the list after `add` is the old head, unless the segment touches that. -/
theorem head_pivot (merged : Merged rq start fin tiflags next m) (valid : rq.Valid)
    (ends : EndsAtHead rq.fifo start fin) {head : SegInfo} (front : next.fifo.head? = some head) :
    pivot rq.fifo start fin = (head.startseq, head.endseq) := by
  have result := merged.absorbs.result
  have left := merged.absorbs.lo_eq
  have right := merged.absorbs.hi_eq
  have separated := valid.separated
  generalize rq.fifo = l at *
  match l with
  | [] =>
    obtain ⟨x, member, _⟩ := ends
    exact absurd member List.not_mem_nil
  | first :: rest =>
    rw [result] at front
    by_cases before : first.endseq < start
    · rw [List.filter_cons_of_pos (by simpa using before)] at front
      cases Option.some.inj front
      exact if_pos ⟨ends, before⟩
    · have none : (first :: rest).filter (fun b => b.endseq < start) = [] := by
        refine List.filter_eq_nil_iff.mpr fun b member => ?_
        have reaches : start ≤ b.endseq := by
          rcases List.mem_cons.mp member with same | later
          · exact same ▸ not_lt.mp before
          · exact (not_lt.mp before).trans ((List.pairwise_cons.mp separated.hi_lt).1 b later).le
        simpa using reaches
      rw [none] at front
      cases Option.some.inj front
      rw [pivot, if_neg fun both => before both.2, left, right]

theorem pivot_of_not_ends (merged : Merged rq start fin tiflags next m) (ends : ¬EndsAtHead rq.fifo start fin) :
    pivot rq.fifo start fin = (m.startseq, m.endseq) := by
  have left := merged.absorbs.lo_eq
  have right := merged.absorbs.hi_eq
  generalize rq.fifo = l at *
  match l with
  | [] => rw [left, right, pivot, hullLo, hullHi]
  | first :: rest => rw [pivot, if_neg fun both => ends both.1, left, right]

/-- Whether `add` leaves `sack_min` alone can be told before it is called. -/
theorem fixesMin_iff {b : SackBlock} (valid : rq.Valid) (merged : Merged rq b.left b.right tiflags next m) :
    FixesMin rq b ↔ next.rcvNxt = rq.rcvNxt := by
  rcases merged.nxt with ⟨exact, same⟩ | ⟨other, ⟨ends, head, front, value⟩ | ⟨ends, value⟩⟩
  · exact iff_of_true (Or.inl exact) same
  · rw [FixesMin, or_iff_right other, value, reached_eq_iff, head_pivot merged valid ends front]
  · rw [FixesMin, or_iff_right other, value, reached_eq_iff, pivot_of_not_ends merged ends]

/-- The blocks of a header are put into the queue, and `sack_min` stays. -/
theorem sacking_run {blocks : List SackBlock} (valid : rq.Valid) (proper : ∀ b ∈ blocks, b.left < b.right)
    (along : sacking.Along FixesMin rq blocks) :
    ∃ last outs, sacking.run rq blocks = some (last, outs) ∧ last.Valid ∧ last.rcvNxt = rq.rcvNxt ∧
      ∀ k, k ∈ cover SegInfo.startseq SegInfo.endseq last.fifo ↔
        k ∈ cover SegInfo.startseq SegInfo.endseq rq.fifo ∨ ∃ b ∈ blocks, b.left ≤ k ∧ k < b.right := by
  induction blocks generalizing rq with
  | nil => exact ⟨rq, [], rfl, valid, rfl, by simp⟩
  | cons b blocks ih =>
    obtain ⟨nonempty, proper⟩ := List.forall_mem_cons.mp proper
    obtain ⟨next, flags, m, taken, merged⟩ := valid.add_merged nonempty 0 0
    have taken : sacking.step rq b = some (next, flags) := taken
    obtain ⟨last, outs, ran, valid', same, covers⟩ := ih merged.valid proper (along.tail taken)
    refine ⟨last, flags :: outs, by rw [Machine.run_cons taken, ran]; rfl, valid',
      same.trans ((fixesMin_iff valid merged).mp along.head), fun k => ?_⟩
    rw [covers, merged.absorbs.cover, Set.mem_union, Set.mem_Ico, List.exists_mem_cons_iff, or_assoc]

end Add

section Raise

variable {rq : ReassemblyQueue} {highest : ℤ}

theorem raise_kept (valid : rq.Valid) (least : rq.rcvNxt = highest + 1) (lastAck : ℤ) :
    (raise rq lastAck).1.Valid ∧ (raise rq lastAck).1.rcvNxt = max highest lastAck + 1 ∧
      (∀ k ∈ cover SegInfo.startseq SegInfo.endseq (raise rq lastAck).1.fifo,
        k ∈ cover SegInfo.startseq SegInfo.endseq rq.fifo) ∧
      ∀ k ∈ cover SegInfo.startseq SegInfo.endseq rq.fifo,
        k ∈ cover SegInfo.startseq SegInfo.endseq (raise rq lastAck).1.fifo ∨ k < max highest lastAck + 1 := by
  have valid' : ReassemblyQueue.Valid { rq with rcvNxt := lastAck + 1 } :=
    ⟨valid.separated, valid.linked, valid.distinct, valid.used, valid.total⟩
  simp only [raise]
  split_ifs with above bare
  · have highest' : max highest lastAck = lastAck := max_eq_right (by omega)
    have cleared := valid'.cleared (lastAck + 1)
    have covers := ReassemblyQueue.trimmed_cover (lastAck + 1) rq.fifo
    rw [← cleared.fifo] at covers
    refine ⟨valid'.clearto_valid (lastAck + 1), by rw [highest']; exact cleared.rcvNxt, fun k inside => ?_,
      fun k inside => ?_⟩
    · exact (covers ▸ inside : k ∈ _ \ Set.Iio (lastAck + 1)).1
    · rw [highest']
      by_cases low : k < lastAck + 1
      · exact Or.inr low
      · exact Or.inl (covers.symm ▸ ⟨inside, low⟩ : k ∈ cover _ _ _)
  · have highest' : max highest lastAck = lastAck := max_eq_right (by omega)
    exact ⟨valid', by rw [highest'], fun _ inside => inside, fun _ inside => Or.inl inside⟩
  · have highest' : max highest lastAck = highest := max_eq_left (by omega)
    exact ⟨valid, by rw [highest', least], fun _ inside => inside, fun _ inside => Or.inl inside⟩

end Raise

section Nexthole

variable {l : List SegInfo} {hole fcnt fbytes : ℤ}

/-- The hole that is found when there is a block above it. -/
theorem nextholeFrom_spec (separated : Separated SegInfo.startseq SegInfo.endseq l) (seq : ℤ)
    (found : ReassemblyQueue.nextholeFrom seq l = (hole, fcnt, fbytes)) (above : 0 < fcnt) :
    seq ≤ hole ∧ hole ∉ cover SegInfo.startseq SegInfo.endseq l ∧ ∃ b ∈ l, hole < b.startseq := by
  induction l with
  | nil =>
    rw [ReassemblyQueue.nextholeFrom] at found
    cases found
    exact absurd above (by decide)
  | cons p rest ih =>
    have proper := separated.nonempty p List.mem_cons_self
    have later := (List.pairwise_cons.mp separated.apart).1
    rw [ReassemblyQueue.nextholeFrom] at found
    split_ifs at found with low within bare
    · obtain ⟨rfl, _⟩ := Prod.mk.inj found
      refine ⟨le_refl _, ?_, p, List.mem_cons_self, low⟩
      rintro ⟨b, member, first, _⟩
      rcases List.mem_cons.mp member with rfl | member
      · omega
      · have after := later b member
        omega
    · cases found
      exact absurd above (by decide)
    · obtain ⟨rfl, _⟩ := Prod.mk.inj found
      obtain ⟨q, tail, rfl⟩ := List.exists_cons_of_ne_nil bare
      refine ⟨within.2, ?_, q, by simp, later q List.mem_cons_self⟩
      rintro ⟨b, member, first, last⟩
      rcases List.mem_cons.mp member with rfl | member
      · omega
      · have after := later b member
        omega
    · obtain ⟨least, outside, b, member, under⟩ :=
        ih (separated.sublist (List.sublist_cons_self p rest)) found
      refine ⟨least, ?_, b, List.mem_cons_of_mem p member, under⟩
      rw [Intervals.cover_cons]
      rintro (inside | inside)
      · have last := inside.2
        omega
      · exact outside inside

theorem getNextRetran_spec {s : ScoreBoardRQ} (valid : s.rq.Valid) :
    s.getNextRetran.1.rq = s.rq ∧ (s.getNextRetran.2 = -1 ∨
      s.sackMin ≤ s.getNextRetran.2 ∧ s.getNextRetran.2 ∉ cover SegInfo.startseq SegInfo.endseq s.rq.fifo ∧
        ∃ b ∈ s.rq.fifo, s.getNextRetran.2 < b.startseq) := by
  have kept : (if s.hSeqno < s.sackMin then { s with hSeqno := s.sackMin } else s).rq = s.rq := by split_ifs <;> rfl
  have least : s.sackMin ≤ (if s.hSeqno < s.sackMin then { s with hSeqno := s.sackMin } else s).hSeqno := by
    split_ifs with low
    · exact le_refl _
    · exact not_lt.mp low
  unfold getNextRetran
  generalize (if s.hSeqno < s.sackMin then { s with hSeqno := s.sackMin } else s) = start at kept least ⊢
  have hole := fun above => nextholeFrom_spec valid.separated start.hSeqno rfl above
  simp only [ReassemblyQueue.nexthole, kept]
  split_ifs with positive none further
  · exact ⟨kept, Or.inl rfl⟩
  · obtain ⟨bound, outside, above⟩ := hole (not_le.mp none)
    exact ⟨rfl, Or.inr ⟨least.trans bound, outside, above⟩⟩
  · obtain ⟨bound, outside, above⟩ := hole (not_le.mp none)
    exact ⟨kept, Or.inr ⟨least.trans bound, outside, above⟩⟩
  · exact ⟨kept, Or.inl rfl⟩

end Nexthole

/-- The queue has all that the sender was told of from `sack_min` on, and nothing else. -/
structure Holds (told : Told) (s : ScoreBoardRQ) : Prop where
  valid : s.rq.Valid
  least : s.sackMin = told.highest + 1
  known : ∀ k ∈ cover SegInfo.startseq SegInfo.endseq s.rq.fifo, told.Covers k
  kept : ∀ k, told.Covers k → k ∈ cover SegInfo.startseq SegInfo.endseq s.rq.fifo ∨ k < s.sackMin

variable {told : Told} {s : ScoreBoardRQ}

theorem Holds.nothing : Holds Told.nothing make where
  valid := ReassemblyQueue.make_valid (-1)
  least := rfl
  known _ := fun ⟨_, member, _⟩ => absurd member List.not_mem_nil
  kept _ := fun ⟨_, member, _⟩ => absurd member List.not_mem_nil

theorem Holds.same_rq {next : ScoreBoardRQ} (holds : Holds told s) (same : next.rq = s.rq) : Holds told next where
  valid := same ▸ holds.valid
  least := by rw [sackMin, same]; exact holds.least
  known := same ▸ holds.known
  kept := by rw [sackMin, same]; exact holds.kept

/-- The queue does not hold what has been retransmitted. -/
theorem Holds.marked (holds : Holds told s) {marks : List ℤ} : Holds { told with marked := marks } s :=
  ⟨holds.valid, holds.least, holds.known, holds.kept⟩

theorem Holds.cleared (holds : Holds told s) : Holds (told.tell .clearScoreBoard) s.clearScoreBoard where
  valid := ReassemblyQueue.clear_valid s.rq
  least := holds.least
  known _ := fun ⟨_, member, _⟩ => absurd member List.not_mem_nil
  kept _ := fun ⟨_, member, _⟩ => absurd member List.not_mem_nil

theorem Holds.updated (holds : Holds told s) {lastAck : ℤ} {blocks : List SackBlock}
    (proper : ∀ b ∈ blocks, b.left < b.right) (along : sacking.Along FixesMin (raise s.rq lastAck).1 blocks) :
    ∃ next, s.updateScoreBoard lastAck blocks = some next ∧
      Holds (told.tell (.updateScoreBoard lastAck blocks)) next := by
  obtain ⟨valid, least, fewer, rest⟩ := raise_kept holds.valid holds.least lastAck
  obtain ⟨last, outs, ran, valid', same, covers⟩ := sacking_run valid proper along
  have least' := same.trans least
  refine ⟨{ s with changed := (raise s.rq lastAck).2 || s.rq.total ≠ last.total, rq := last }, ?_, valid', least',
    fun k inside => ?_, fun k told' => ?_⟩
  · simp only [updateScoreBoard, ran, Option.bind_eq_bind, Option.bind_some]
    rfl
  · rcases (covers k).mp inside with old | ⟨b, member, bounds⟩
    · obtain ⟨b, member, bounds⟩ := holds.known k (fewer k old)
      exact ⟨b, List.mem_append_left blocks member, bounds⟩
    · exact ⟨b, List.mem_append_right told.blocks member, bounds⟩
  · have raised : k ∈ cover SegInfo.startseq SegInfo.endseq (raise s.rq lastAck).1.fifo ∨
        (∃ b ∈ blocks, b.left ≤ k ∧ k < b.right) ∨ k < last.rcvNxt := by
      obtain ⟨b, member, bounds⟩ := told'
      rcases List.mem_append.mp member with old | new
      · rcases holds.kept k ⟨b, old, bounds⟩ with inside | low
        · exact (rest k inside).imp_right fun low => Or.inr (least' ▸ low)
        · have bound := holds.least
          have greater := le_max_left told.highest lastAck
          exact Or.inr (Or.inr (by omega))
      · exact Or.inr (Or.inl ⟨b, new, bounds⟩)
    rcases raised with inside | new | low
    · exact Or.inl ((covers k).mpr (Or.inl inside))
    · exact Or.inl ((covers k).mpr (Or.inr new))
    · exact Or.inr low

theorem Holds.step {op : Op} (holds : Holds told s) (proper : Proper op) (keeps : KeepsMin s op) :
    ∃ next out, machine.step s op = some (next, out) ∧ Holds (told.tell op) next := by
  cases op with
  | updateScoreBoard lastAck blocks =>
    obtain ⟨next, ran, holds'⟩ := holds.updated proper keeps
    exact ⟨next, none, by simp only [machine, ran, Option.map_some], holds'⟩
  | getNextRetran => exact ⟨_, _, rfl, holds.same_rq (getNextRetran_spec holds.valid).1⟩
  | markRetran retranSeqno sndNxt =>
    have same : (s.markRetran retranSeqno).rq = s.rq := by
      rw [markRetran]
      split_ifs <;> rfl
    exact ⟨_, _, rfl, (holds.same_rq same).marked⟩
  | clearScoreBoard => exact ⟨_, _, rfl, holds.cleared⟩

theorem Holds.run {ops : List Op} (holds : Holds told s) (proper : ∀ op ∈ ops, Proper op)
    (along : machine.Along KeepsMin s ops) :
    ∃ last outs, machine.run s ops = some (last, outs) ∧ Holds (ops.foldl Told.tell told) last := by
  induction ops generalizing s told with
  | nil => exact ⟨s, [], rfl, holds⟩
  | cons op ops ih =>
    obtain ⟨first, proper⟩ := List.forall_mem_cons.mp proper
    obtain ⟨next, out, taken, holds'⟩ := holds.step first along.head
    obtain ⟨last, outs, ran, holds''⟩ := ih holds' proper (along.tail taken)
    exact ⟨last, out :: outs, by rw [Machine.run_cons taken, ran]; rfl, holds''⟩

/-- What is found to retransmit lies in a hole below a block that the sender was told of. -/
theorem Holds.retran (holds : Holds told s) : s.getNextRetran.2 = -1 ∨
    told.highest < s.getNextRetran.2 ∧ ¬told.Covers s.getNextRetran.2 ∧
      ∃ b ∈ told.blocks, s.getNextRetran.2 < b.left := by
  refine (getNextRetran_spec holds.valid).2.imp_right fun ⟨bound, outside, b, member, under⟩ => ?_
  have least := holds.least
  have uncovered : ¬told.Covers s.getNextRetran.2 := fun covers =>
    (holds.kept _ covers).elim outside (not_lt.mpr bound)
  refine ⟨by omega, uncovered, ?_⟩
  obtain ⟨c, told', low, high⟩ := holds.known b.startseq ⟨b, member, le_refl _, holds.valid.separated.nonempty b member⟩
  refine ⟨c, told', ?_⟩
  by_contra reaches
  exact uncovered ⟨c, told', not_lt.mp reaches, under.trans high⟩

/-- In a run whose SACK blocks all keep `sack_min`, it stays one above the highest ACK, and
what `GetNextRetran` finds is in a hole. -/
theorem retran_in_hole (ops : List Op) (proper : ∀ op ∈ ops, Proper op) (along : machine.Along KeepsMin make ops) :
    ∃ last outs, machine.run make ops = some (last, outs) ∧
      last.sackMin = (ops.foldl Told.tell Told.nothing).highest + 1 ∧
      (last.getNextRetran.2 = -1 ∨ (ops.foldl Told.tell Told.nothing).highest < last.getNextRetran.2 ∧
        ¬(ops.foldl Told.tell Told.nothing).Covers last.getNextRetran.2 ∧
        ∃ b ∈ (ops.foldl Told.tell Told.nothing).blocks, last.getNextRetran.2 < b.left) := by
  obtain ⟨last, outs, ran, holds⟩ := Holds.nothing.run proper along
  exact ⟨last, outs, ran, holds.least, holds.retran⟩

theorem retran_in_hole_sample : ∃ last outs,
    machine.run make [.updateScoreBoard 10 [⟨20, 25⟩, ⟨15, 18⟩], .markRetran 11 none] = some (last, outs) ∧
      last.sackMin = 11 ∧
      (last.getNextRetran.2 = -1 ∨ 10 < last.getNextRetran.2 ∧
        ¬Told.Covers ⟨10, [⟨20, 25⟩, ⟨15, 18⟩], [11]⟩ last.getNextRetran.2 ∧
        ∃ b ∈ [(⟨20, 25⟩ : SackBlock), ⟨15, 18⟩], last.getNextRetran.2 < b.left) :=
  retran_in_hole [.updateScoreBoard 10 [⟨20, 25⟩, ⟨15, 18⟩], .markRetran 11 none] (by simp [Proper]) (by decide +kernel)

/-- A stale block takes `sack_min` back, and a number that has been acked is found. -/
theorem stale_block_retran : ∃ last,
    machine.run make [.updateScoreBoard 10 [⟨3, 5⟩, ⟨12, 14⟩]] = some (last, [none]) ∧
      last.sackMin = 5 ∧ last.getNextRetran.2 = 5 := by
  refine ⟨((machine.run make [.updateScoreBoard 10 [⟨3, 5⟩, ⟨12, 14⟩]]).get (by decide +kernel)).1, ?_, ?_, ?_⟩
  all_goals decide +kernel

end ScoreBoardRQ

end Ns2
