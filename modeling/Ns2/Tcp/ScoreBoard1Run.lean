import Mathlib.Data.List.Nodup
import Ns2.Tcp.ScoreBoard1Traverse

namespace Ns2.ScoreBoard1

open Intervals (Spans extent)
open ScoreBoardNode1 (past)

section Clean

variable {sackOut fackOut : ℤ} {fresh : ℕ} {n : ScoreBoardNode1} {rest : List ScoreBoardNode1} {a b lastAck : ℤ}

theorem Sound.total_nonneg {nodes : List ScoreBoardNode1} (sound : Sound sackOut fackOut fresh nodes a b) (flag : SkbFlag) :
    0 ≤ total flag nodes := sound.spans.extent_nonneg

theorem Sound.tail (sound : Sound sackOut fackOut fresh (n :: rest) a b) :
    Sound (if n.flag = .sacked then sackOut - n.getLength else sackOut)
      (if n.flag = .lost then fackOut - n.getLength else fackOut) fresh rest n.past b where
  spans := sound.spans.2.2
  sacked := by
    have sacked := sound.sacked
    rw [total_cons] at sacked
    split_ifs at sacked ⊢ <;> omega
  lost := by
    have lost := sound.lost
    rw [total_cons] at lost
    split_ifs at lost ⊢ <;> omega
  distinct := (List.nodup_cons.mp sound.distinct).2
  used m member := sound.used m (List.mem_cons_of_mem n member)

/-- The first node is cut off at `last_ack`. -/
theorem Sound.cut (sound : Sound sackOut fackOut fresh (n :: rest) a b) (plain : n.flag ≠ .retransmitted)
    (inside : lastAck < n.nxt) :
    Sound (if n.flag = .sacked then sackOut - (lastAck + 1 - n.seq) else sackOut)
      (if n.flag = .lost then fackOut - (lastAck + 1 - n.seq) else fackOut) fresh
      ({ n with seq := lastAck + 1 } :: rest) (lastAck + 1) b := by
  have whole := n.past_of_ne plain
  have shorter : ScoreBoardNode1.past { n with seq := lastAck + 1 } = n.nxt + 1 := ScoreBoardNode1.past_of_ne plain
  refine ⟨⟨rfl, by omega, ?_⟩, ?_, ?_, sound.distinct, fun m member => ?_⟩
  · rw [shorter, ← whole]
    exact sound.spans.2.2
  · have sacked := sound.sacked
    simp only [total_cons, ScoreBoardNode1.length_eq, shorter, whole] at sacked ⊢
    split_ifs at sacked ⊢ <;> omega
  · have lost := sound.lost
    simp only [total_cons, ScoreBoardNode1.length_eq, shorter, whole] at lost ⊢
    split_ifs at lost ⊢ <;> omega
  · rcases List.mem_cons.mp member with rfl | later
    · exact sound.used n List.mem_cons_self
    · exact sound.used m (List.mem_cons_of_mem n later)

theorem shouldClean_cases (n : ScoreBoardNode1) (lastAck : ℤ) :
    (lastAck < n.seq ∧ n.shouldClean lastAck = 0) ∨ (n.getEnd ≤ lastAck ∧ n.shouldClean lastAck = -1) ∨
      n.flag ≠ .retransmitted ∧ n.seq ≤ lastAck ∧ lastAck < n.nxt ∧ n.shouldClean lastAck = lastAck + 1 - n.seq := by
  rw [ScoreBoardNode1.shouldClean]
  by_cases above : lastAck < n.seq
  · exact Or.inl ⟨above, if_pos above⟩
  rw [if_neg above]
  by_cases retransmitted : n.flag = .retransmitted
  · refine Or.inr (Or.inl ⟨?_, if_pos (Or.inl retransmitted)⟩)
    rw [ScoreBoardNode1.getEnd, if_pos retransmitted]
    omega
  · by_cases whole : lastAck ≥ n.nxt
    · refine Or.inr (Or.inl ⟨?_, if_pos (Or.inr whole)⟩)
      rw [ScoreBoardNode1.getEnd, if_neg retransmitted]
      omega
    · exact Or.inr (Or.inr ⟨retransmitted, not_lt.mp above, not_le.mp whole, if_neg (by tauto)⟩)

/-- The nodes all start above an acknowledgement. -/
def Above (nodes : List ScoreBoardNode1) (lastAck : ℤ) : Prop := ∀ n ∈ nodes, lastAck < n.seq

theorem Sound.above {nodes : List ScoreBoardNode1} (sound : Sound sackOut fackOut fresh nodes a b) (start : lastAck < a) :
    Above nodes lastAck := fun n member => start.trans_le (sound.spans.start_le n member)

/-- An empty board may begin anywhere. -/
theorem Sound.restart (sound : Sound sackOut fackOut fresh [] a b) (c : ℤ) : Sound sackOut fackOut fresh [] c c :=
  ⟨rfl, sound.sacked, sound.lost, sound.distinct, sound.used⟩

theorem Sound.start {nodes : List ScoreBoardNode1} (sound : Sound sackOut fackOut fresh nodes a b)
    (above : Above nodes lastAck) (nonempty : nodes ≠ []) : lastAck < a := by
  obtain ⟨n, rest, rfl⟩ := List.exists_cons_of_ne_nil nonempty
  exact sound.spans.1 ▸ above n List.mem_cons_self

/-- No counter gets negative when the acknowledged packets are taken off the board. -/
theorem cleanLoop_spec {nodes : List ScoreBoardNode1} {s : ScoreBoard1}
    (sound : Sound s.sackOut s.fackOut s.fresh nodes a b) (points : ∀ p ∈ s.nxtToRetrx, p ∈ nodes.map ScoreBoardNode1.id)
    (lastAck : ℤ) (changed : Bool) (flag : BitVec 8) :
    ∃ next changed' flag' a', cleanLoop lastAck nodes s changed flag = some (next, changed', flag') ∧
      Sound next.sackOut next.fackOut next.fresh next.nodes a' b ∧
      (∀ p ∈ next.nxtToRetrx, p ∈ next.nodes.map ScoreBoardNode1.id) ∧ Above next.nodes lastAck ∧
      (next.nodes = [] → ∀ n ∈ nodes, n.getEnd ≤ lastAck) := by
  induction nodes generalizing s a changed flag with
  | nil =>
    exact ⟨_, changed, flag, a, rfl, sound, points, fun _ member => absurd member List.not_mem_nil,
      fun _ _ member => absurd member List.not_mem_nil⟩
  | cons n rest ih =>
    have tail := sound.tail
    have noSack := tail.total_nonneg .sacked
    have noLost := tail.total_nonneg .lost
    rw [cleanLoop]
    simp only
    rcases shouldClean_cases n lastAck with ⟨above, keeps⟩ | ⟨whole, cleans⟩ | ⟨plain, low, inside, cuts⟩
    · rw [if_pos keeps]
      refine ⟨_, changed, flag, a, rfl, sound, points, sound.above (sound.spans.1 ▸ above), fun empty => ?_⟩
      exact absurd empty (List.cons_ne_nil n rest)
    · have passed : ∀ p ∈ (if s.nxtToRetrx = some n.id then rest.head?.map (·.id) else s.nxtToRetrx),
          p ∈ rest.map ScoreBoardNode1.id := by
        intro p member
        split_ifs at member with front
        · obtain ⟨m, first, rfl⟩ := Option.map_eq_some_iff.mp member
          exact List.mem_map_of_mem (List.mem_of_mem_head? first)
        · rcases List.mem_cons.mp (points p member) with rfl | later
          · exact absurd member front
          · exact later
      rw [cleans, if_neg (by decide : ¬(-1 : ℤ) = 0), if_pos (by decide : (-1 : ℤ) < 0)]
      rw [← tail.sacked] at noSack
      rw [← tail.lost] at noLost
      rw [if_neg (by rintro (⟨sacked, negative⟩ | ⟨lost, negative⟩) <;> omega)]
      rw [if_pos (by decide : (-1 : ℤ) < 0)]
      obtain ⟨next, changed', flag', a', looped, sound', points', above, gone⟩ := ih (a := n.past)
        (s := { s with
          sackOut := if n.flag = .sacked then s.sackOut - n.getLength else s.sackOut
          fackOut := if n.flag = .lost then s.fackOut - n.getLength else s.fackOut
          ackedRtxId := if (decide (n.flag = .retransmitted) && decide (n.retran > s.ackedRtxId)) = true then n.retran
            else s.ackedRtxId
          nxtToRetrx := if s.nxtToRetrx = some n.id then rest.head?.map (·.id) else s.nxtToRetrx })
        tail passed (changed || (decide (n.flag = .retransmitted) && decide (n.retran > s.ackedRtxId)))
        (if n.flag = .retransmitted then flag ||| flagUnsureTstamp else flag)
      exact ⟨next, changed', flag', a', looped, sound', points', above,
        fun empty => List.forall_mem_cons.mpr ⟨whole, gone empty⟩⟩
    · have cut := sound.cut plain inside
      have noSack := cut.total_nonneg .sacked
      have noLost := cut.total_nonneg .lost
      rw [← cut.sacked] at noSack
      rw [← cut.lost] at noLost
      rw [cuts, if_neg (by omega), if_neg (by omega : ¬lastAck + 1 - n.seq < 0)]
      rw [if_neg (by rintro (⟨sacked, negative⟩ | ⟨lost, negative⟩) <;> omega), if_neg (by omega)]
      refine ⟨_, changed, flag, lastAck + 1, rfl, cut, points, cut.above (by omega), fun empty => ?_⟩
      exact absurd empty (List.cons_ne_nil _ rest)

end Clean

/-- The board is sound, and `nxt_to_retrx_` points to one of its nodes if to any. -/
def Holds (s : ScoreBoard1) (a : ℤ) : Prop :=
  (∃ b, Sound s.sackOut s.fackOut s.fresh s.nodes a b) ∧ ∀ p ∈ s.nxtToRetrx, p ∈ s.nodes.map ScoreBoardNode1.id

theorem Holds.above {s : ScoreBoard1} {a lastAck : ℤ} (holds : s.Holds a) (start : lastAck < a) : Above s.nodes lastAck :=
  holds.1.choose_spec.above start

theorem Holds.start {s : ScoreBoard1} {a lastAck : ℤ} (holds : s.Holds a) (above : Above s.nodes lastAck)
    (nonempty : s.nodes ≠ []) : lastAck < a := holds.1.choose_spec.start above nonempty

theorem Sound.nil (fresh : ℕ) (a : ℤ) : Sound 0 0 fresh [] a a :=
  ⟨rfl, rfl, rfl, List.nodup_nil, fun _ member => absurd member List.not_mem_nil⟩

theorem holds_nil (s : ScoreBoard1) (a : ℤ) (empty : s.nodes = []) (sacked : s.sackOut = 0) (lost : s.fackOut = 0)
    (nowhere : s.nxtToRetrx = none) : s.Holds a := by
  refine ⟨⟨a, ?_⟩, fun p member => ?_⟩
  · rw [empty, sacked, lost]
    exact Sound.nil s.fresh a
  · rw [nowhere] at member
    exact absurd member (Option.not_mem_none p)

theorem clearScoreBoard_holds (s : ScoreBoard1) (a : ℤ) : s.clearScoreBoard.Holds a := holds_nil _ a rfl rfl rfl rfl

theorem cleanRtxQueue_spec {s : ScoreBoard1} {a : ℤ} (holds : s.Holds a) (lastAck : ℤ) :
    ∃ next changed flag a', s.cleanRtxQueue lastAck = some (next, changed, flag) ∧ next.Holds a' ∧
      Above next.nodes lastAck ∧ (next.nodes = [] → ∀ n ∈ s.nodes, n.getEnd ≤ lastAck) := by
  obtain ⟨⟨b, sound⟩, points⟩ := holds
  obtain ⟨next, changed, flag, a', cleaned, sound', points', above, gone⟩ := cleanLoop_spec sound points lastAck false 0
  exact ⟨next, changed, flag, a', cleaned, ⟨⟨b, sound'⟩, points'⟩, above, gone⟩

section Update

/-- The board that the traversal starts on. -/
theorem traverse_rounds {s : ScoreBoard1} {a b : ℤ} (sound : Sound s.sackOut s.fackOut s.fresh s.nodes a b)
    (nonempty : s.nodes ≠ []) (dupackThreshold : ℤ) (sacks : List SackBlock) (thorough : Bool) (flag : BitVec 8) :
    ∃ next flag', traverse dupackThreshold s.rounds [] none s.nodes sacks thorough { s with nxtToRetrx := none } flag =
      some (next, flag') ∧ next.Holds a := by
  obtain ⟨last, ends⟩ := Option.ne_none_iff_exists'.mp (mt List.getLast?_eq_none_iff.mp nonempty)
  have stop := sound.spans.getLast_hi ends
  have enough : max (s.fack + 1) b - a < s.rounds := by
    have wide := sound.spans.sub_le
    rw [rounds, ends, Option.elim_some]
    rw [ScoreBoardNode1.past] at stop
    simp only [ScoreBoardNode1.past] at wide
    omega
  have nowhere : Points none [] none :=
    ⟨fun p member => absurd member (Option.not_mem_none p), fun n member => absurd member (Option.not_mem_none n)⟩
  obtain ⟨next, flag', b', walked, sound', points⟩ := traverse_spec (s := { s with nxtToRetrx := none })
    dupackThreshold s.rounds sacks thorough flag (show Sound _ _ _ ([] ++ none.toList ++ s.nodes) a b from sound) sound.spans
    nowhere (le_max_right (s.fack + 1) b) (by simp only; omega) enough
  exact ⟨next, flag', walked, ⟨b', sound'⟩, points⟩

/-- If the board is empty once it has been cleaned, the last SACK in order ends above the first
packet of the block that is created for it. -/
def Fills (s : ScoreBoard1) (lastAck : ℤ) (blocks : List SackBlock) : Prop :=
  (∀ n ∈ s.nodes, n.getEnd ≤ lastAck) → ∀ b ∈ (filterSacks lastAck blocks).getLast?, lastAck + 1 < b.right ∨ lastAck < 0

instance Fills.decidable (s : ScoreBoard1) (lastAck : ℤ) (blocks : List SackBlock) : Decidable (s.Fills lastAck blocks) := by
  unfold Fills
  infer_instance

theorem advanceFack_fst (s : ScoreBoard1) (sacks : List SackBlock) (thorough : Bool) :
    ∃ fack, (s.advanceFack sacks thorough).1 = { s with fack := fack } ∧ s.fack ≤ fack ∧
      ∀ b ∈ sacks.getLast?, b.right - 1 ≤ fack := by
  rw [advanceFack]
  split
  · rename_i b last
    rw [last]
    split_ifs with further
    · exact ⟨b.right - 1, rfl, further.le, fun c same => Option.some.inj same ▸ le_rfl⟩
    · exact ⟨s.fack, rfl, le_rfl, fun c same => Option.some.inj same ▸ not_lt.mp further⟩
  · rename_i nothing
    exact ⟨s.fack, rfl, le_rfl, fun c member => absurd (nothing ▸ member) (Option.not_mem_none c)⟩

theorem create_sound {s : ScoreBoard1} {a b lastAck : ℤ} (sound : Sound s.sackOut s.fackOut s.fresh s.nodes a b)
    (above : Above s.nodes lastAck) (room : s.nodes = [] → lastAck + 1 ≤ s.fack) :
    ∃ a' b', Sound (s.create lastAck).sackOut (s.create lastAck).fackOut (s.create lastAck).fresh
      (s.create lastAck).nodes a' b' ∧ (s.create lastAck).nodes ≠ [] ∧ lastAck < a' := by
  rw [create]
  by_cases empty : s.nodes = []
  · rw [if_pos empty]
    rw [empty] at sound
    exact ⟨lastAck + 1, s.fack + 1, (sound.restart (lastAck + 1)).append (room empty), List.cons_ne_nil _ _,
      lt_add_one lastAck⟩
  · rw [if_neg empty]
    exact ⟨a, b, sound, empty, sound.start above empty⟩

/-- What `UpdateScoreBoard` does once the board has been cleaned. -/
theorem advance_spec {s : ScoreBoard1} {a lastAck : ℤ} (holds : s.Holds a) (above : Above s.nodes lastAck)
    {sacks : List SackBlock}
    (room : s.nodes = [] → ∃ b, sacks.getLast? = some b ∧ (lastAck + 1 < b.right ∨ lastAck < 0 ∧ s.fack = 0))
    (dupackThreshold : ℤ) (thorough : Bool) (flag : BitVec 8) :
    ∃ next flag' a', traverse dupackThreshold ((s.advanceFack sacks thorough).1.create lastAck).rounds [] none
        ((s.advanceFack sacks thorough).1.create lastAck).nodes sacks (s.advanceFack sacks thorough).2
        { (s.advanceFack sacks thorough).1.create lastAck with nxtToRetrx := none } flag = some (next, flag') ∧
      next.Holds a' ∧ Above next.nodes lastAck := by
  obtain ⟨⟨b, sound⟩, -⟩ := holds
  obtain ⟨fack, advanced, higher, reaches⟩ := advanceFack_fst s sacks thorough
  obtain ⟨a', b', sound', nonempty, start⟩ := create_sound (s := (s.advanceFack sacks thorough).1)
    (by rw [advanced]; exact sound) (show Above _ lastAck by rw [advanced]; exact above) fun empty => by
      rw [advanced] at empty ⊢
      obtain ⟨c, last, wide⟩ := room empty
      have reached := reaches c last
      simp only
      omega
  obtain ⟨next, flag', walked, holds⟩ := traverse_rounds sound' nonempty dupackThreshold sacks
    (s.advanceFack sacks thorough).2 flag
  exact ⟨next, flag', a', walked, holds, holds.above start⟩

theorem updateScoreBoard_spec {s : ScoreBoard1} {a lastAck : ℤ} {blocks : List SackBlock} (holds : s.Holds a)
    (fills : s.Fills lastAck blocks) (dupackThreshold : ℤ) :
    ∃ next flag a', s.updateScoreBoard lastAck blocks dupackThreshold = some (next, flag) ∧ next.Holds a' ∧
      Above next.nodes lastAck := by
  obtain ⟨cleaned, changed, flag, a', clean, holds', above, gone⟩ := cleanRtxQueue_spec holds lastAck
  rw [updateScoreBoard, clean]
  simp only [Option.bind_eq_bind, Option.bind_some]
  by_cases empty : cleaned.nodes = []
  · rw [if_pos empty]
    have nothing : Above cleaned.clearScoreBoard.nodes lastAck := fun _ member => absurd member List.not_mem_nil
    have early : (cleaned.clearScoreBoard).Holds (lastAck + 1) := clearScoreBoard_holds cleaned _
    by_cases idle : blocks = [] ∨ filterSacks lastAck blocks = []
    · rw [if_pos ⟨by simp [empty], idle⟩]
      exact ⟨_, flag, lastAck + 1, rfl, early, nothing⟩
    · rw [if_neg (by tauto)]
      obtain ⟨c, last⟩ := Option.ne_none_iff_exists'.mp (mt List.getLast?_eq_none_iff.mp (not_or.mp idle).2)
      exact advance_spec early nothing (fun _ => ⟨c, last, (fills (gone empty) c last).imp_right (⟨·, rfl⟩)⟩) _ _ _
  · rw [if_neg empty]
    by_cases idle : ¬(changed && decide (cleaned.nodes ≠ [])) = true ∧ (blocks = [] ∨ filterSacks lastAck blocks = [])
    · rw [if_pos idle]
      exact ⟨cleaned, flag, a', rfl, holds', above⟩
    · rw [if_neg idle]
      exact advance_spec holds' above (absurd · empty) _ _ _

end Update

section Loss

/-- The board of a round of `MarkLoss`, with the nodes `rest` still to come. -/
structure Marking.Holds (rest : List ScoreBoardNode1) (a b : ℤ) (w : Marking) : Prop where
  sound : Sound w.board.sackOut w.board.fackOut w.board.fresh (w.before ++ w.prev.toList ++ rest) a b
  points : Points w.board.nxtToRetrx w.before w.prev
  last : w.lastLost = true → ∀ p ∈ w.prev, p.flag = .lost
  begins : w.prev = none → w.before = []

variable {rest : List ScoreBoardNode1} {now : ScoreBoardNode1} {a b : ℤ} {w : Marking}

/-- A node that is not sacked becomes a lost one. -/
theorem Marking.lost_sound (holds : w.Holds (now :: rest) a b) (unsacked : now.flag ≠ .sacked) :
    Sound w.board.sackOut
      (if now.flag ≠ .lost then w.board.fackOut + (now.getEnd - now.seq + 1) else w.board.fackOut) w.board.fresh
      (w.before ++ w.prev.toList ++ now.setFlag .lost :: rest) a b := by
  have relabelled := Sound.relabel holds.sound .lost (by decide)
  have length : now.getLength = now.getEnd - now.seq + 1 := by
    rw [now.length_eq, ScoreBoardNode1.past]
    omega
  rw [if_pos rfl, if_neg unsacked, if_neg (by decide : ¬SkbFlag.lost = .sacked), add_zero, sub_zero] at relabelled
  have counted : w.board.fackOut + now.getLength - (if now.flag = .lost then now.getLength else 0) =
      if now.flag ≠ .lost then w.board.fackOut + (now.getEnd - now.seq + 1) else w.board.fackOut := by
    by_cases already : now.flag = .lost
    · rw [if_pos already, if_neg (not_not.mpr already), add_sub_cancel_right]
    · rw [if_neg already, if_pos already, length, sub_zero]
  rwa [counted] at relabelled

theorem Marking.round_holds (holds : w.Holds (now :: rest) a b) : (w.round now).Holds rest a b ∧ (w.round now).prev ≠ none := by
  rw [Marking.round]
  by_cases unsacked : now.flag ≠ .sacked
  · have lost := Marking.lost_sound holds unsacked
    rw [if_pos unsacked]
    simp only
    split
    · rename_i p lastLost prev
      have same : p.flag = .lost := holds.last lastLost p prev
      rw [prev, Option.toList_some, List.append_assoc] at lost
      refine ⟨⟨?_, ⟨fun q member => ?_, fun n merged _ => ?_⟩, fun _ n merged => ?_, fun empty => ?_⟩, ?_⟩
      · rw [Option.toList_some, List.append_assoc]
        exact Sound.merge lost same (by decide : SkbFlag.lost ≠ .retransmitted)
      · have passed := holds.points.passed q member
        rw [prev, List.map_append] at passed
        rw [List.map_append]
        exact passed
      · exact holds.points.lost p prev same
      · cases Option.some.inj merged
        exact same
      · exact absurd empty (Option.some_ne_none _)
      · exact Option.some_ne_none _
    · refine ⟨⟨?_, ⟨fun q member => ?_, fun n _ _ => ?_⟩, fun _ n front => ?_, fun empty => ?_⟩, Option.some_ne_none _⟩
      · rw [Option.toList_some, List.append_assoc]
        exact lost
      · rw [List.map_append, List.mem_append]
        cases pointer : w.board.nxtToRetrx with
        | none =>
          rw [pointer] at member
          exact Or.inr (List.mem_singleton.mpr (Option.some.inj member).symm)
        | some r =>
          rw [pointer] at member
          exact Or.inl (holds.points.passed q (pointer.trans member))
      · cases w.board.nxtToRetrx <;> exact Option.some_ne_none _
      · cases Option.some.inj front
        rfl
      · exact absurd empty (Option.some_ne_none _)
  · rw [if_neg unsacked]
    have sacked := not_not.mp unsacked
    refine ⟨⟨?_, ⟨fun q member => ?_, fun n front lost => ?_⟩, fun lost => ?_, fun empty => ?_⟩, Option.some_ne_none _⟩
    · rw [Option.toList_some, List.append_assoc]
      exact holds.sound
    · rw [List.map_append, List.mem_append]
      exact Or.inl (holds.points.passed q member)
    · cases Option.some.inj front
      rw [sacked] at lost
      exact absurd lost (by decide)
    · exact absurd lost Bool.false_ne_true
    · exact absurd empty (Option.some_ne_none _)

theorem Marking.foldl_holds {nodes : List ScoreBoardNode1} (holds : w.Holds nodes a b) :
    (nodes.foldl Marking.round w).Holds [] a b ∧ (nodes ≠ [] → (nodes.foldl Marking.round w).prev ≠ none) := by
  induction nodes generalizing w with
  | nil => exact ⟨holds, absurd rfl⟩
  | cons n nodes ih =>
    obtain ⟨after, reached⟩ := Marking.round_holds holds
    refine ⟨(ih after).1, fun _ => ?_⟩
    cases nodes with
    | nil => exact reached
    | cons m nodes => exact (ih after).2 (List.cons_ne_nil m nodes)

theorem Marking.extend_holds (holds : w.Holds [] a b) (nonempty : w.prev ≠ none) (sndNxt : ℤ) :
    (∃ b', (w.extend sndNxt).Holds [] a b') ∧ (w.extend sndNxt).prev ≠ none := by
  obtain ⟨p, prev⟩ := Option.ne_none_iff_exists'.mp nonempty
  have sound := holds.sound
  rw [List.append_nil] at sound
  have ends : p.getEnd + 1 = b := by
    refine sound.spans.getLast_hi ?_
    rw [prev]
    exact List.getLast?_concat
  rw [Marking.extend, prev]
  simp only
  split_ifs with short
  · rw [ends]
    have longer : Marking.Holds [⟨w.board.fresh, .inflight, b, sndNxt - 1, 0⟩] a (sndNxt - 1 + 1)
        { w with board := { w.board with fresh := w.board.fresh + 1 } } :=
      ⟨sound.append (by omega), holds.points, holds.last, holds.begins⟩
    rw [← prev]
    exact ⟨⟨_, (Marking.round_holds longer).1⟩, (Marking.round_holds longer).2⟩
  · exact ⟨⟨b, holds⟩, nonempty⟩

/-- An empty board becomes one block of lost packets. -/
theorem markLoss_nil {s : ScoreBoard1} {b sndUna sndNxt : ℤ} (sound : Sound s.sackOut s.fackOut s.fresh [] a b)
    (some : sndUna < sndNxt) :
    Sound s.sackOut (s.fackOut + (sndNxt - sndUna)) (s.fresh + 1) [⟨s.fresh, .lost, sndUna, sndNxt - 1, 0⟩] sndUna
      (sndNxt - 1 + 1) := by
  have created := (sound.restart sndUna).append (show sndUna ≤ sndNxt - 1 by omega)
  have relabelled := Sound.relabel created .lost (by decide)
  have length : ScoreBoardNode1.getLength ⟨s.fresh, .inflight, sndUna, sndNxt - 1, 0⟩ = sndNxt - 1 + 1 - sndUna := rfl
  rw [if_pos rfl, if_neg (by decide : ¬SkbFlag.lost = .sacked), if_neg (by decide : ¬SkbFlag.inflight = .sacked),
    if_neg (by decide : ¬SkbFlag.inflight = .lost), length, sub_add_cancel, add_zero, sub_zero, sub_zero] at relabelled
  rw [sub_add_cancel]
  exact relabelled

theorem markLoss_spec {s : ScoreBoard1} (holds : s.Holds a) (sndUna sndNxt : ℤ) :
    ∃ a', (s.markLoss sndUna sndNxt).Holds a' ∧
      ∀ lastAck, Above s.nodes lastAck → lastAck < sndUna → Above (s.markLoss sndUna sndNxt).nodes lastAck := by
  obtain ⟨⟨b, sound⟩, -⟩ := holds
  rw [markLoss]
  by_cases empty : s.nodes = []
  · rw [empty] at sound ⊢
    simp only [List.foldl_nil, Marking.extend, Option.toList_none, List.append_nil, true_and]
    split_ifs with some
    · have lost := markLoss_nil sound some
      refine ⟨sndUna, ⟨⟨_, lost⟩, fun p member => ?_⟩, fun lastAck _ start => lost.above start⟩
      exact List.mem_singleton.mpr (Option.some.inj member).symm
    · exact ⟨a, ⟨⟨b, sound⟩, fun p member => absurd member (Option.not_mem_none p)⟩, fun lastAck above _ => above⟩
  · have started : Marking.Holds s.nodes a b ⟨{ s with nxtToRetrx := none }, [], none, false⟩ :=
      ⟨sound, ⟨fun p member => absurd member (Option.not_mem_none p), fun n member => absurd member (Option.not_mem_none n)⟩,
        fun lost => absurd lost Bool.false_ne_true, fun _ => rfl⟩
    obtain ⟨marked, reached⟩ := Marking.foldl_holds started
    generalize s.nodes.foldl Marking.round ⟨{ s with nxtToRetrx := none }, [], none, false⟩ = w at marked reached
    obtain ⟨⟨b', marked'⟩, some⟩ := Marking.extend_holds marked (reached empty) sndNxt
    simp only
    rw [if_neg (fun nothing => some nothing.1)]
    have sound' := marked'.sound
    rw [List.append_nil] at sound'
    exact ⟨a, ⟨⟨b', sound'⟩, marked'.points.passed⟩, fun lastAck above _ => sound'.above (sound.start above empty)⟩

end Loss

section Retransmit

variable {n : ScoreBoardNode1} {before after : List ScoreBoardNode1} {p fresh : ℕ} {a b : ℤ}

theorem retransmit_append (sndNxt retransId : ℤ) (first : p ∉ before.map ScoreBoardNode1.id) (found : n.id = p) :
    retransmit p fresh sndNxt retransId (before ++ n :: after) =
      before ++ ((⟨n.id, .retransmitted, n.seq, sndNxt, retransId⟩ ::
        if n.nxt > n.seq then [(n.split (n.seq + 1) fresh).2] else []) ++ after) := by
  induction before with
  | nil =>
    rw [List.nil_append, retransmit, if_pos found]
    split_ifs <;> rfl
  | cons m before ih =>
    rw [List.map_cons, List.mem_cons, not_or] at first
    rw [List.cons_append, retransmit, if_neg (fun same => first.1 same.symm), ih first.2]
    rfl

theorem retransmit_ids (p fresh : ℕ) (sndNxt retransId : ℤ) (nodes : List ScoreBoardNode1) :
    nodes.map ScoreBoardNode1.id ⊆ (retransmit p fresh sndNxt retransId nodes).map ScoreBoardNode1.id := by
  induction nodes with
  | nil => exact List.Subset.refl []
  | cons n nodes ih =>
    rw [retransmit]
    split_ifs
    · exact List.cons_subset_cons n.id (List.subset_cons_self fresh _)
    · exact List.Subset.refl _
    · exact List.cons_subset_cons n.id ih

theorem Sound.retransmit {sackOut fackOut : ℤ} (sound : Sound sackOut fackOut fresh (before ++ n :: after) a b)
    (lost : n.flag = .lost) (sndNxt retransId : ℤ) :
    Sound sackOut (fackOut - 1) (fresh + 1) (ScoreBoard1.retransmit n.id fresh sndNxt retransId (before ++ n :: after))
      a b := by
  have plain : n.flag ≠ .retransmitted := by
    rw [lost]
    decide
  have whole := n.past_of_ne plain
  have proper := sound.proper
  have used := sound.used n (by simp)
  have first : n.id ∉ before.map ScoreBoardNode1.id := by
    have distinct := sound.distinct
    rw [List.map_append, List.nodup_append] at distinct
    exact fun member => distinct.2.2 n.id member n.id (by simp) rfl
  have second : (n.split (n.seq + 1) fresh).2.past = n.nxt + 1 := ScoreBoardNode1.past_of_ne plain
  have single : ScoreBoardNode1.past ⟨n.id, .retransmitted, n.seq, sndNxt, retransId⟩ = n.seq + 1 := rfl
  rw [ScoreBoardNode1.getEnd, if_neg plain] at proper
  rw [retransmit_append sndNxt retransId first rfl]
  by_cases more : n.nxt > n.seq
  · rw [if_pos more]
    refine sound.exchange [n] _ ?_ ?_ ?_ (Nat.le_succ fresh) ?_ ?_
    · rintro c d ⟨start, _, ends⟩
      refine ⟨start, ?_, single.symm, ?_, second.trans (whole.symm.trans ends)⟩
      · rw [single]
        omega
      · rw [single, second]
        omega
    · simp only [total_cons, total_nil, lost, ScoreBoardNode1.split_flag]
      simp
    · simp only [total_cons, total_nil, lost, ScoreBoardNode1.split_flag, ScoreBoardNode1.length_eq, whole, second]
      simp [ScoreBoardNode1.split]
      omega
    · simp [ScoreBoardNode1.split, used.ne]
    · simp [ScoreBoardNode1.split]
  · rw [if_neg more]
    refine sound.exchange [n] _ ?_ ?_ ?_ (Nat.le_succ fresh) ?_ ?_
    · rintro c d ⟨start, _, ends⟩
      refine ⟨start, ?_, single.trans (Eq.trans ?_ ends)⟩
      · rw [single]
        omega
      · omega
    · simp [total_cons, total_nil, lost]
    · simp only [total_cons, total_nil, lost, ScoreBoardNode1.length_eq, whole]
      simp
      omega
    · simp
    · simp

theorem fromRetrx_spec {s : ScoreBoard1} {q : ℕ} (pointer : s.nxtToRetrx = some q)
    (member : q ∈ s.nodes.map ScoreBoardNode1.id) :
    ∃ before n after, s.nodes = before ++ n :: after ∧ n.id = q ∧ s.fromRetrx = some (n :: after) := by
  have found : s.fromRetrx = some (s.nodes.dropWhile (·.id ≠ q)) := by
    rw [fromRetrx, pointer]
    exact if_pos member
  obtain ⟨m, inside, same⟩ := List.mem_map.mp member
  have parts := List.takeWhile_append_dropWhile (p := fun n : ScoreBoardNode1 => decide (n.id ≠ q)) (l := s.nodes)
  cases rest : s.nodes.dropWhile (·.id ≠ q) with
  | nil => exact absurd (List.dropWhile_eq_nil_iff.mp rest m inside) (by simpa using same)
  | cons n after =>
    have stops := List.head?_dropWhile_not (fun n : ScoreBoardNode1 => decide (n.id ≠ q)) s.nodes
    rw [rest] at parts stops
    exact ⟨_, n, after, parts.symm, by simpa using stops, found.trans (congrArg some rest)⟩

theorem getNextRetran_spec {s : ScoreBoard1} (holds : s.Holds a) :
    ∃ next seq, s.getNextRetran = some (next, seq) ∧ next.Holds a ∧ next.nodes = s.nodes := by
  obtain ⟨⟨b, sound⟩, points⟩ := holds
  rw [getNextRetran]
  cases pointer : s.nxtToRetrx with
  | none =>
    rw [show s.fromRetrx = some [] by rw [fromRetrx, pointer]]
    exact ⟨_, -1, rfl, ⟨⟨b, sound⟩, fun p member => absurd member (Option.not_mem_none p)⟩, rfl⟩
  | some q =>
    obtain ⟨before, n, after, parts, -, follows⟩ := fromRetrx_spec pointer (points q pointer)
    rw [follows, Option.bind_eq_bind, Option.bind_some]
    cases found : (n :: after).find? (·.flag = .lost) with
    | none => exact ⟨_, -1, rfl, ⟨⟨b, sound⟩, fun p member => absurd member (Option.not_mem_none p)⟩, rfl⟩
    | some m =>
      refine ⟨_, m.seq, rfl, ⟨⟨b, sound⟩, fun p member => ?_⟩, rfl⟩
      have inside : m ∈ s.nodes := by
        rw [parts]
        exact List.mem_append_right before (List.mem_of_find?_eq_some found)
      exact Option.some.inj member ▸ List.mem_map_of_mem inside

/-- `retran_seqno` is a packet of a lost block to which `nxt_to_retrx_` points, as after `GetNextRetran`. -/
def Recommended (s : ScoreBoard1) (retranSeqno : ℤ) : Prop :=
  ∃ n ∈ s.nodes, s.nxtToRetrx = some n.id ∧ n.flag = .lost ∧ n.Inside retranSeqno

instance Recommended.decidable (s : ScoreBoard1) (retranSeqno : ℤ) : Decidable (s.Recommended retranSeqno) :=
  inferInstanceAs (Decidable (∃ n ∈ s.nodes, _))

theorem markRetran_spec {s : ScoreBoard1} (holds : s.Holds a) {retranSeqno : ℤ} (recommended : s.Recommended retranSeqno)
    (sndNxt : ℤ) :
    ∃ next, s.markRetran retranSeqno sndNxt = some next ∧ next.Holds a := by
  obtain ⟨⟨b, sound⟩, points⟩ := holds
  obtain ⟨n, member, pointer, lost, inside⟩ := recommended
  obtain ⟨before, m, after, parts, same, follows⟩ := fromRetrx_spec pointer (List.mem_map_of_mem member)
  have only : m = n := List.inj_on_of_nodup_map sound.distinct (by simp [parts]) member same
  subst only
  have retransmitted := sound
  rw [parts] at retransmitted
  replace retransmitted := retransmitted.retransmit lost sndNxt s.rtxId
  have enough : ¬s.fackOut - 1 < 0 := by
    have counted := retransmitted.total_nonneg .lost
    rw [← retransmitted.lost] at counted
    omega
  rw [markRetran, follows]
  simp only [Option.bind_eq_bind, Option.bind_some, List.head?_cons]
  rw [if_neg (not_not.mpr inside), if_neg enough]
  rw [← parts] at retransmitted
  exact ⟨_, rfl, ⟨b, retransmitted⟩, fun p found => retransmit_ids m.id s.fresh sndNxt s.rtxId s.nodes (points p found)⟩

end Retransmit

section Runs

/-- The acknowledgement that an operation brings. -/
def Op.lastAck? : Op → Option ℤ
  | .updateScoreBoard lastAck _ _ => some lastAck
  | .cleanRtxQueue lastAck => some lastAck
  | _ => none

/-- The acknowledgements do not decrease, and `MarkLoss` gets a `snd_una` above those before it. -/
def Op.Before (earlier later : Op) : Prop :=
  ∀ lastAck ∈ earlier.lastAck?,
    match later with
    | .updateScoreBoard lastAck' _ _ => lastAck ≤ lastAck'
    | .cleanRtxQueue lastAck' => lastAck ≤ lastAck'
    | .markLoss sndUna _ => lastAck < sndUna
    | _ => True

instance Op.Before.decidable (earlier later : Op) : Decidable (earlier.Before later) := by
  unfold Op.Before
  cases later <;> infer_instance

/-- `MarkRetran` is called for a block that `GetNextRetran` has recommended. -/
def Called (s : ScoreBoard1) : Op → Prop
  | .markRetran retranSeqno _ => s.Recommended retranSeqno
  | _ => True

instance Called.decidable (s : ScoreBoard1) (op : Op) : Decidable (s.Called op) := by
  cases op <;> unfold Called <;> infer_instance

def FillsBoard (s : ScoreBoard1) : Op → Prop
  | .updateScoreBoard lastAck blocks _ => s.Fills lastAck blocks
  | _ => True

instance FillsBoard.decidable (s : ScoreBoard1) (op : Op) : Decidable (s.FillsBoard op) := by
  cases op <;> unfold FillsBoard <;> infer_instance

variable {s : ScoreBoard1} {a : ℤ}

/-- What one operation does to a board above an acknowledgement. -/
theorem step_spec (holds : s.Holds a) (op : Op) (called : s.Called op) (fills : s.FillsBoard op) :
    ∃ next out a', machine.step s op = some (next, out) ∧ next.Holds a' ∧
      (∀ lastAck ∈ op.lastAck?, Above next.nodes lastAck) ∧
      ∀ earlier : Op, earlier.Before op → (∀ lastAck ∈ earlier.lastAck?, Above s.nodes lastAck) →
        ∀ lastAck ∈ earlier.lastAck?, Above next.nodes lastAck := by
  cases op with
  | updateScoreBoard newAck blocks dupackThreshold =>
    obtain ⟨next, flag, a', updated, holds', above⟩ := updateScoreBoard_spec holds fills dupackThreshold
    refine ⟨next, some (.inl flag), a', by simp [machine, updated], holds', ?_, fun earlier order _ lastAck member => ?_⟩
    · rintro lastAck ⟨⟩
      exact above
    · exact fun n inside => (order lastAck member).trans_lt (above n inside)
  | cleanRtxQueue newAck =>
    obtain ⟨next, changed, flag, a', cleaned, holds', above, -⟩ := cleanRtxQueue_spec holds newAck
    refine ⟨next, none, a', by simp [machine, cleaned], holds', ?_, fun earlier order _ lastAck member => ?_⟩
    · rintro lastAck ⟨⟩
      exact above
    · exact fun n inside => (order lastAck member).trans_lt (above n inside)
  | markLoss sndUna sndNxt =>
    obtain ⟨a', holds', above⟩ := markLoss_spec holds sndUna sndNxt
    refine ⟨_, none, a', rfl, holds', fun lastAck none => absurd none (Option.not_mem_none lastAck), ?_⟩
    exact fun earlier order old lastAck member => above lastAck (old lastAck member) (order lastAck member)
  | getNextRetran =>
    obtain ⟨next, seq, found, holds', same⟩ := getNextRetran_spec holds
    refine ⟨next, some (.inr seq), a, by simp [machine, found], holds',
      fun lastAck none => absurd none (Option.not_mem_none lastAck), fun earlier _ old => ?_⟩
    rw [same]
    exact old
  | markRetran retranSeqno sndNxt =>
    obtain ⟨next, marked, holds'⟩ := markRetran_spec holds called sndNxt
    obtain ⟨n, member, _⟩ := called
    refine ⟨next, none, a, by simp [machine, marked], holds',
      fun lastAck none => absurd none (Option.not_mem_none lastAck), fun earlier _ old lastAck member' => ?_⟩
    exact holds'.above (holds.start (old lastAck member') (List.ne_nil_of_mem member))
  | clearScoreBoard =>
    refine ⟨_, none, a, rfl, clearScoreBoard_holds s a, fun lastAck none => absurd none (Option.not_mem_none lastAck), ?_⟩
    exact fun _ _ _ lastAck _ n member => absurd member List.not_mem_nil

theorem run_holds {earlier ops : List Op} (holds : s.Holds a) (ordered : (earlier ++ ops).Pairwise Op.Before)
    (above : ∀ op ∈ earlier, ∀ lastAck ∈ op.lastAck?, Above s.nodes lastAck) (called : machine.Along Called s ops)
    (fills : machine.Along FillsBoard s ops) :
    ∃ last outs a', machine.run s ops = some (last, outs) ∧ last.Holds a' ∧
      ∀ op ∈ earlier ++ ops, ∀ lastAck ∈ op.lastAck?, Above last.nodes lastAck := by
  induction ops generalizing s a earlier with
  | nil =>
    rw [List.append_nil]
    exact ⟨s, [], a, rfl, holds, above⟩
  | cons op ops ih =>
    obtain ⟨next, out, a', taken, holds', new, old⟩ := step_spec holds op called.head fills.head
    rw [List.append_cons] at ordered ⊢
    have before := (List.pairwise_append.mp (List.pairwise_append.mp ordered).1).2.2
    obtain ⟨last, outs, a'', run, final, all⟩ := ih holds' ordered (fun op' member => by
      rcases List.mem_append.mp member with first | same
      · exact old op' (before op' first op List.mem_cons_self) (above op' first)
      · exact List.mem_singleton.mp same ▸ new) (called.tail taken) (fills.tail taken)
    exact ⟨last, out :: outs, a'', by rw [Machine.run_cons taken, run]; rfl, final, all⟩

theorem total_eq (flag : SkbFlag) (nodes : List ScoreBoardNode1) :
    total flag nodes = ((nodes.filter (·.flag = flag)).map ScoreBoardNode1.getLength).sum := by
  rw [total, extent]
  exact congrArg List.sum (List.map_congr_left fun n _ => n.length_eq.symm)

/-- What is promised of the board after some operations. -/
structure Correct (ops : List Op) (s : ScoreBoard1) : Prop where
  proper : ∀ n ∈ s.nodes, n.seq ≤ n.getEnd
  contiguous : s.nodes.IsChain fun m n => n.seq = m.getEnd + 1
  above : ∀ op ∈ ops, ∀ lastAck ∈ op.lastAck?, ∀ n ∈ s.nodes, lastAck + 1 ≤ n.seq
  sacked : s.sackOut = ((s.nodes.filter (·.flag = .sacked)).map ScoreBoardNode1.getLength).sum
  lost : s.fackOut = ((s.nodes.filter (·.flag = .lost)).map ScoreBoardNode1.getLength).sum
  sackOut_nonneg : 0 ≤ s.sackOut
  fackOut_nonneg : 0 ≤ s.fackOut

end Runs

end Ns2.ScoreBoard1
