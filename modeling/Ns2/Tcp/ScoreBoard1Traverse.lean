import Ns2.Tcp.ScoreBoard1

namespace Ns2

open Intervals (Spans extent)

namespace ScoreBoardNode1

/-- The first sequence number after the node. -/
def past (n : ScoreBoardNode1) : ℤ := n.getEnd + 1

theorem length_eq (n : ScoreBoardNode1) : n.getLength = n.past - n.seq := by
  rw [getLength, past, getEnd]
  split_ifs <;> omega

@[simp] theorem setFlag_seq (n : ScoreBoardNode1) (flag : SkbFlag) : (n.setFlag flag).seq = n.seq := rfl

@[simp] theorem setFlag_id (n : ScoreBoardNode1) (flag : SkbFlag) : (n.setFlag flag).id = n.id := rfl

@[simp] theorem setFlag_flag (n : ScoreBoardNode1) (flag : SkbFlag) : (n.setFlag flag).flag = flag := rfl

theorem setFlag_past (n : ScoreBoardNode1) (flag : SkbFlag) (other : flag ≠ .retransmitted) :
    (n.setFlag flag).past = n.past := by
  rw [past, getEnd, setFlag_flag, if_neg other, past, getEnd, setFlag]

theorem setFlag_length (n : ScoreBoardNode1) (flag : SkbFlag) (other : flag ≠ .retransmitted) :
    (n.setFlag flag).getLength = n.getLength := by
  rw [length_eq, length_eq, n.setFlag_past flag other, setFlag_seq]

theorem split_flag (n : ScoreBoardNode1) (seq : ℤ) (id : ℕ) :
    (n.split seq id).1.flag = n.flag ∧ (n.split seq id).2.flag = n.flag := ⟨rfl, rfl⟩

theorem past_of_ne {n : ScoreBoardNode1} (other : n.flag ≠ .retransmitted) : n.past = n.nxt + 1 := by
  rw [past, getEnd, if_neg other]

end ScoreBoardNode1

namespace ScoreBoard1

open ScoreBoardNode1 (past)

/-- The number of packets in the nodes with a flag. -/
def total (flag : SkbFlag) (nodes : List ScoreBoardNode1) : ℤ :=
  extent ScoreBoardNode1.seq past (fun n => n.flag = flag) nodes

theorem total_cons (flag : SkbFlag) (n : ScoreBoardNode1) (nodes : List ScoreBoardNode1) :
    total flag (n :: nodes) = (if n.flag = flag then n.getLength else 0) + total flag nodes := by
  rw [total, Intervals.extent_cons, n.length_eq, total]

theorem total_append (flag : SkbFlag) (nodes nodes' : List ScoreBoardNode1) :
    total flag (nodes ++ nodes') = total flag nodes + total flag nodes' := Intervals.extent_append nodes nodes'

theorem total_nil (flag : SkbFlag) : total flag [] = 0 := rfl

/-- The nodes follow one another from `a` to `b`, the two counters are right, and the addresses are distinct. -/
structure Sound (sackOut fackOut : ℤ) (fresh : ℕ) (nodes : List ScoreBoardNode1) (a b : ℤ) : Prop where
  spans : Spans ScoreBoardNode1.seq past a nodes b
  sacked : sackOut = total .sacked nodes
  lost : fackOut = total .lost nodes
  distinct : (nodes.map ScoreBoardNode1.id).Nodup
  used : ∀ n ∈ nodes, n.id < fresh

variable {sackOut fackOut sackOut' fackOut' : ℤ} {fresh fresh' : ℕ} {before after : List ScoreBoardNode1} {a b : ℤ}
  {n : ScoreBoardNode1}

/-- Some nodes may give way to others in the same place. -/
theorem Sound.exchange (mid mid' : List ScoreBoardNode1) (sound : Sound sackOut fackOut fresh (before ++ (mid ++ after)) a b)
    (spans : ∀ c d, Spans ScoreBoardNode1.seq past c mid d → Spans ScoreBoardNode1.seq past c mid' d)
    (sacked : sackOut' = sackOut + total .sacked mid' - total .sacked mid)
    (lost : fackOut' = fackOut + total .lost mid' - total .lost mid) (more : fresh ≤ fresh')
    (distinct : (mid'.map ScoreBoardNode1.id).Nodup)
    (origin : ∀ n ∈ mid', n.id ∈ mid.map ScoreBoardNode1.id ∨ fresh ≤ n.id ∧ n.id < fresh') :
    Sound sackOut' fackOut' fresh' (before ++ (mid' ++ after)) a b where
  spans := sound.spans.exchange spans
  sacked := by
    rw [sacked, sound.sacked]
    simp only [total_append]
    omega
  lost := by
    rw [lost, sound.lost]
    simp only [total_append]
    omega
  distinct := by
    have old := sound.distinct
    have used := sound.used
    simp only [List.map_append, List.nodup_append, List.mem_append] at old ⊢
    obtain ⟨left, ⟨_, right, apart⟩, outer⟩ := old
    have later : ∀ i ∈ mid'.map ScoreBoardNode1.id, ∀ j ∈ after.map ScoreBoardNode1.id, i ≠ j := by
      intro i member j later
      obtain ⟨m, inside, rfl⟩ := List.mem_map.mp member
      obtain ⟨k, inside', rfl⟩ := List.mem_map.mp later
      rcases origin m inside with old | new
      · exact apart m.id old k.id later
      · have bound := used k (by simp [inside'])
        omega
    refine ⟨left, ⟨distinct, right, later⟩, fun i member j either => ?_⟩
    rcases either with middle | later
    · obtain ⟨k, inside, rfl⟩ := List.mem_map.mp member
      obtain ⟨m, inside', rfl⟩ := List.mem_map.mp middle
      rcases origin m inside' with old | new
      · exact outer k.id member m.id (Or.inl old)
      · have bound := used k (by simp [inside])
        omega
    · exact outer i member j (Or.inr later)
  used n member := by
    rcases List.mem_append.mp member with first | rest
    · exact (sound.used n (List.mem_append_left _ first)).trans_le more
    · rcases List.mem_append.mp rest with middle | last
      · rcases origin n middle with old | new
        · obtain ⟨m, inside, same⟩ := List.mem_map.mp old
          rw [← same]
          exact (sound.used m (by simp [inside])).trans_le more
        · exact new.2
      · exact (sound.used n (by simp [last])).trans_le more

theorem Sound.proper (sound : Sound sackOut fackOut fresh (before ++ n :: after) a b) : n.seq ≤ n.getEnd := by
  have proper := sound.spans.nonempty n (by simp)
  rw [past] at proper
  omega

theorem Sound.split (sound : Sound sackOut fackOut fresh (before ++ n :: after) a b) {seq : ℤ}
    (plain : n.flag ≠ .retransmitted) (low : n.seq < seq) (high : seq ≤ n.nxt) :
    Sound sackOut fackOut (fresh + 1) (before ++ (n.split seq fresh).1 :: (n.split seq fresh).2 :: after) a b := by
  have whole := n.past_of_ne plain
  have first : (n.split seq fresh).1.past = seq := by
    rw [ScoreBoardNode1.past_of_ne (show (n.split seq fresh).1.flag ≠ .retransmitted from plain)]
    exact sub_add_cancel seq 1
  have second : (n.split seq fresh).2.past = n.nxt + 1 :=
    ScoreBoardNode1.past_of_ne (show (n.split seq fresh).2.flag ≠ .retransmitted from plain)
  have counted : ∀ flag, total flag [(n.split seq fresh).1, (n.split seq fresh).2] = total flag [n] := by
    intro flag
    simp only [total_cons, total_nil, ScoreBoardNode1.length_eq, first, second, whole, ScoreBoardNode1.split_flag]
    by_cases same : n.flag = flag
    · simp only [if_pos same, ScoreBoardNode1.split]
      omega
    · simp only [if_neg same, add_zero]
  have bound := sound.used n (by simp)
  refine sound.exchange [n] [(n.split seq fresh).1, (n.split seq fresh).2] ?_ (by rw [counted]; omega)
    (by rw [counted]; omega) (Nat.le_succ fresh) ?_ ?_
  · rintro c d ⟨start, proper, ends⟩
    refine ⟨start, ?_, first.symm, ?_, second.trans (whole.symm.trans ends)⟩
    · rw [first]
      omega
    · rw [first, second]
      omega
  · simp [ScoreBoardNode1.split, bound.ne]
  · simp [ScoreBoardNode1.split]

/-- A node gets another flag, and the counters follow. -/
theorem Sound.relabel (sound : Sound sackOut fackOut fresh (before ++ n :: after) a b) (flag : SkbFlag)
    (plain : flag ≠ .retransmitted) :
    Sound (sackOut + (if flag = .sacked then n.getLength else 0) - if n.flag = .sacked then n.getLength else 0)
      (fackOut + (if flag = .lost then n.getLength else 0) - if n.flag = .lost then n.getLength else 0) fresh
      (before ++ n.setFlag flag :: after) a b := by
  have length := n.setFlag_length flag plain
  refine sound.exchange [n] [n.setFlag flag] ?_ ?_ ?_ le_rfl (by simp) (by simp)
  · rintro c d ⟨start, proper, ends⟩
    exact ⟨start, (n.setFlag_past flag plain).symm ▸ proper, (n.setFlag_past flag plain).trans ends⟩
  · simp only [total_cons, total_nil, ScoreBoardNode1.setFlag_flag, length, add_zero]
  · simp only [total_cons, total_nil, ScoreBoardNode1.setFlag_flag, length, add_zero]

/-- Two nodes of the same flag become one. -/
theorem Sound.merge {p : ScoreBoardNode1} (sound : Sound sackOut fackOut fresh (before ++ p :: n :: after) a b)
    (same : p.flag = n.flag) (plain : n.flag ≠ .retransmitted) :
    Sound sackOut fackOut fresh (before ++ p.merge n :: after) a b := by
  have first := ScoreBoardNode1.past_of_ne (same ▸ plain : p.flag ≠ .retransmitted)
  have second := n.past_of_ne plain
  have joined : (p.merge n).past = n.past := by
    rw [ScoreBoardNode1.past_of_ne (show (p.merge n).flag ≠ .retransmitted from same ▸ plain), second]
    rfl
  obtain ⟨c, _, start, proper, adjoins, proper', _⟩ := Intervals.spans_append.mp sound.spans
  have counted : ∀ flag, total flag [p.merge n] = total flag [p, n] := by
    intro flag
    simp only [total_cons, total_nil, ScoreBoardNode1.length_eq, joined, same]
    simp only [ScoreBoardNode1.merge, same]
    split_ifs <;> omega
  refine sound.exchange [p, n] [p.merge n] ?_ (by rw [counted]; omega) (by rw [counted]; omega) le_rfl
    (by simp) (by simp [ScoreBoardNode1.merge])
  rintro c d ⟨start, proper, adjoins, proper', ends⟩
  refine ⟨start, ?_, joined.trans ends⟩
  rw [joined]
  omega

section Visits

variable {w : Visit} {dupackThreshold : ℤ}

/-- The board of a visit, with the nodes `before` in front of the one that is visited. -/
def Visit.Sound (before : List ScoreBoardNode1) (a b : ℤ) (w : Visit) : Prop :=
  ScoreBoard1.Sound w.board.sackOut w.board.fackOut w.board.fresh (before ++ w.now :: w.rest) a b

/-- What a part of a visit leaves alone. -/
structure Visit.Stays (w w' : Visit) : Prop where
  id : w'.now.id = w.now.id
  seq : w'.now.seq = w.now.seq
  fack : w'.board.fack = w.board.fack
  nxtToRetrx : w'.board.nxtToRetrx = w.board.nxtToRetrx

theorem Visit.Stays.trans {w' w'' : Visit} (first : w.Stays w') (second : w'.Stays w'') : w.Stays w'' :=
  ⟨second.id.trans first.id, second.seq.trans first.seq, second.fack.trans first.fack,
    second.nxtToRetrx.trans first.nxtToRetrx⟩

theorem Visit.split_stays (w : Visit) (seq : ℤ) : w.Stays (w.split seq) := ⟨rfl, rfl, rfl, rfl⟩

theorem Visit.mark_stays (w : Visit) : w.Stays w.mark := ⟨rfl, rfl, rfl, rfl⟩

theorem Visit.mark_sound (sound : w.Sound before a b) (unsacked : w.now.flag ≠ .sacked) : w.mark.Sound before a b := by
  have relabelled := ScoreBoard1.Sound.relabel sound .sacked (by decide)
  have lost : (if w.now.flag = .lost then w.board.fackOut - w.now.getLength else w.board.fackOut) =
      w.board.fackOut + (if SkbFlag.sacked = .lost then w.now.getLength else 0) -
        if w.now.flag = .lost then w.now.getLength else 0 := by
    rw [if_neg (by decide : ¬SkbFlag.sacked = .lost)]
    split_ifs <;> omega
  rw [if_pos rfl, if_neg unsacked, sub_zero, ← lost] at relabelled
  exact relabelled

/-- A SACK that reaches into the node but does not cover its start can split it. -/
theorem Visit.split_sound (sound : w.Sound before a b) {seq : ℤ} (low : w.now.seq < seq) (high : seq ≤ w.now.getEnd) :
    (w.split seq).Sound before a b := by
  have plain : w.now.flag ≠ .retransmitted := fun retransmitted => by
    rw [ScoreBoardNode1.getEnd, if_pos retransmitted] at high
    omega
  rw [ScoreBoardNode1.getEnd, if_neg plain] at high
  exact ScoreBoard1.Sound.split sound plain low high

theorem Visit.cover_spec (sound : w.Sound before a b) (unsacked : w.now.flag ≠ .sacked) {c : SackBlock}
    (right : w.now.seq < c.right) :
    (w.cover c).Sound before a b ∧ w.Stays (w.cover c) ∧ (w.cover c).sacks = w.sacks ∧
      (c.left > (w.cover c).now.getEnd ∨ (w.cover c).now.flag = .sacked) := by
  rw [Visit.cover]
  split_ifs with meets inner covered
  · have ends : (w.split c.left).now.getEnd = c.left - 1 := by
      refine if_neg fun retransmitted => ?_
      have single : w.now.getEnd = w.now.seq := if_pos retransmitted
      omega
    exact ⟨Visit.split_sound sound inner meets, w.split_stays c.left, rfl, Or.inl (by omega)⟩
  · exact ⟨Visit.mark_sound (Visit.split_sound sound right covered) unsacked,
      (w.split_stays c.right).trans (Visit.mark_stays _), rfl, Or.inr rfl⟩
  · exact ⟨Visit.mark_sound sound unsacked, w.mark_stays, rfl, Or.inr rfl⟩
  · exact ⟨sound, ⟨rfl, rfl, rfl, rfl⟩, rfl, Or.inl (not_le.mp meets)⟩

theorem Visit.sack_spec (sound : w.Sound before a b) (unsacked : w.now.flag ≠ .sacked) :
    w.sack.Sound before a b ∧ w.Stays w.sack ∧ (w.sack.Unreached ∨ w.sack.now.flag = .sacked) := by
  have stops := List.head?_dropWhile_not (fun c : SackBlock => decide (c.right ≤ w.now.seq)) w.sacks
  have skipped : w.skip.sacks = w.sacks.dropWhile (·.right ≤ w.now.seq) := rfl
  rw [← skipped] at stops
  rw [Visit.sack]
  split
  · rename_i none
    refine ⟨sound, ⟨rfl, rfl, rfl, rfl⟩, Or.inl fun c front => ?_⟩
    rw [none] at front
    exact absurd front (by simp)
  · rename_i c sacks found
    rw [found] at stops
    obtain ⟨sound', stays, same, either⟩ := Visit.cover_spec (w := w.skip) sound unsacked (c := c)
      (not_le.mp (of_decide_eq_false stops))
    refine ⟨sound', ⟨stays.id, stays.seq, stays.fack, stays.nxtToRetrx⟩, either.imp_left fun beyond d front => ?_⟩
    rw [same, found] at front
    cases Option.some.inj front
    exact beyond

/-- A node that was in flight is lost. -/
theorem Visit.lost_sound (sound : w.Sound before a b) (unsacked : w.now.flag ≠ .sacked) (unlost : w.now.flag ≠ .lost) :
    ScoreBoard1.Sound w.board.sackOut (w.board.fackOut + w.now.getLength) w.board.fresh
      (before ++ w.now.setFlag .lost :: w.rest) a b := by
  have relabelled := ScoreBoard1.Sound.relabel sound .lost (by decide)
  rw [if_pos rfl, if_neg unsacked, if_neg unlost, if_neg (by decide : ¬SkbFlag.lost = .sacked), sub_zero, sub_zero,
    add_zero] at relabelled
  exact relabelled

/-- What the check does to the address in `nxt_to_retrx_` and to the rest of the visit. -/
structure Visit.Checks (w w' : Visit) : Prop where
  id : w'.now.id = w.now.id
  seq : w'.now.seq = w.now.seq
  fack : w'.board.fack = w.board.fack
  nxtToRetrx : w'.board.nxtToRetrx =
    if w'.now.flag = .lost then w.board.nxtToRetrx <|> some w.now.id else w.board.nxtToRetrx

theorem Visit.Checks.of_stays {w' : Visit} (stays : w.Stays w') (unlost : w'.now.flag ≠ .lost) : w.Checks w' :=
  ⟨stays.id, stays.seq, stays.fack, by rw [if_neg unlost, stays.nxtToRetrx]⟩

theorem Visit.check_spec (sound : w.Sound before a b) (dupackThreshold : ℤ) :
    (w.check dupackThreshold).Sound before a b ∧ w.Checks (w.check dupackThreshold) := by
  rw [Visit.check]
  cases flag : w.now.flag with
  | retransmitted =>
    have single : w.now.getLength = 1 := if_pos flag
    simp only
    split_ifs with again
    · have lost := Visit.lost_sound sound (by rw [flag]; decide) (by rw [flag]; decide)
      rw [single] at lost
      exact ⟨lost, rfl, rfl, rfl, rfl⟩
    · exact ⟨sound, .of_stays ⟨rfl, rfl, rfl, rfl⟩ (by rw [flag]; decide)⟩
  | inflight =>
    simp only
    split_ifs with late partly
    · have halved := Visit.split_sound sound (show w.now.seq < w.board.fack - (dupackThreshold + 1) + 1 by omega)
        (by omega)
      have plain : (w.split (w.board.fack - (dupackThreshold + 1) + 1)).now.flag = .inflight := flag
      have length := (w.split (w.board.fack - (dupackThreshold + 1) + 1)).now.setFlag_length .lost (by decide)
      have lost := Visit.lost_sound halved (by rw [plain]; decide) (by rw [plain]; decide)
      rw [← length] at lost
      exact ⟨lost, rfl, rfl, rfl, rfl⟩
    · have length := w.now.setFlag_length .lost (by decide)
      have lost := Visit.lost_sound sound (by rw [flag]; decide) (by rw [flag]; decide)
      rw [← length] at lost
      exact ⟨lost, rfl, rfl, rfl, rfl⟩
    · exact ⟨sound, .of_stays ⟨rfl, rfl, rfl, rfl⟩ (by rw [flag]; decide)⟩
  | lost => exact ⟨sound, rfl, rfl, rfl, (if_pos flag).symm⟩
  | sacked => exact ⟨sound, .of_stays ⟨rfl, rfl, rfl, rfl⟩ (by rw [flag]; decide)⟩

theorem Visit.process_spec (sound : w.Sound before a b) (dupackThreshold : ℤ) :
    (w.process dupackThreshold).Sound before a b ∧ w.Checks (w.process dupackThreshold) := by
  rw [Visit.process]
  by_cases unsacked : w.now.flag ≠ .sacked
  · obtain ⟨sound', stays, either⟩ := Visit.sack_spec sound unsacked
    rw [if_pos unsacked]
    by_cases unreached : w.sack.Unreached
    · obtain ⟨sound'', checks⟩ := Visit.check_spec sound' dupackThreshold
      rw [if_pos unreached]
      refine ⟨sound'', checks.id.trans stays.id, checks.seq.trans stays.seq, checks.fack.trans stays.fack, ?_⟩
      rw [checks.nxtToRetrx, stays.nxtToRetrx, stays.id]
    · have sacked := either.resolve_left unreached
      rw [if_neg unreached]
      exact ⟨sound', .of_stays stays (by rw [sacked]; decide)⟩
  · rw [if_neg unsacked]
    exact ⟨sound, .of_stays ⟨rfl, rfl, rfl, rfl⟩ (by rw [not_not.mp unsacked]; decide)⟩

end Visits

section Walk

variable {s : ScoreBoard1} {prev : Option ScoreBoardNode1} {now : ScoreBoardNode1} {rest : List ScoreBoardNode1} {c : ℤ}

theorem Sound.append {nodes : List ScoreBoardNode1} (sound : Sound sackOut fackOut fresh nodes a b) {last : ℤ}
    (beyond : b ≤ last) :
    Sound sackOut fackOut (fresh + 1) (nodes ++ [⟨fresh, .inflight, b, last, 0⟩]) a (last + 1) where
  spans := Intervals.spans_append.mpr ⟨b, sound.spans, rfl, Int.lt_add_one_of_le beyond, rfl⟩
  sacked := by
    rw [total_append, ← sound.sacked]
    exact (add_zero sackOut).symm
  lost := by
    rw [total_append, ← sound.lost]
    exact (add_zero fackOut).symm
  distinct := by
    have distinct := sound.distinct
    rw [List.map_append, List.nodup_append]
    refine ⟨distinct, by simp, fun i member j last => ?_⟩
    obtain ⟨n, inside, rfl⟩ := List.mem_map.mp member
    rw [List.mem_singleton.mp last]
    exact (sound.used n inside).ne
  used n member := by
    rcases List.mem_append.mp member with old | new
    · exact (sound.used n old).trans (Nat.lt_succ_self fresh)
    · rw [List.mem_singleton.mp new]
      exact Nat.lt_succ_self fresh

/-- The address that `nxt_to_retrx_` holds is that of a node that has been passed, and it holds
one if the last node passed is lost. -/
structure Points (nxtToRetrx : Option ℕ) (before : List ScoreBoardNode1) (prev : Option ScoreBoardNode1) : Prop where
  passed : ∀ p ∈ nxtToRetrx, p ∈ (before ++ prev.toList).map ScoreBoardNode1.id
  lost : ∀ n ∈ prev, n.flag = .lost → nxtToRetrx ≠ none

/-- Merging keeps the board sound, and what it deletes is not pointed at. -/
theorem mergePrev_spec (sound : Sound sackOut fackOut fresh (before ++ prev.toList ++ now :: rest) a b)
    {pointer : Option ℕ} (points : Points pointer before prev) :
    Sound sackOut fackOut fresh ((mergePrev before prev now).1 ++ (mergePrev before prev now).2 :: rest) a b ∧
      (mergePrev before prev now).2.past = now.past ∧
      Points (if now.flag = .lost then pointer <|> some now.id else pointer) (mergePrev before prev now).1
        (some (mergePrev before prev now).2) := by
  have moved : Points (if now.flag = .lost then pointer <|> some now.id else pointer) (before ++ prev.toList)
      (some now) := by
    constructor
    · intro p member
      rw [List.map_append, List.mem_append]
      split_ifs at member with lost
      · cases pointer with
        | none => exact Or.inr (List.mem_singleton.mpr (Option.some.inj member).symm)
        | some q => exact Or.inl (points.passed p member)
      · exact Or.inl (points.passed p member)
    · intro n same lost
      cases Option.some.inj same
      rw [if_pos lost]
      cases pointer <;> exact Option.some_ne_none _
  match prev, points, moved, sound with
  | none, _, moved, sound =>
    rw [Option.toList_none, List.append_nil] at moved sound
    exact ⟨sound, rfl, moved⟩
  | some p, points, moved, sound =>
    rw [mergePrev]
    by_cases mergable : p.Mergable now
    · rw [if_pos mergable]
      rw [Option.toList_some, List.append_assoc] at sound
      have plain : (p.merge now).flag ≠ .retransmitted := mergable.2 ▸ mergable.1
      have same : (if now.flag = .lost then pointer <|> some now.id else pointer) = pointer := by
        split_ifs with lost
        · have held := points.lost p rfl (mergable.2.symm.trans lost)
          cases pointer with
          | none => exact absurd rfl held
          | some q => rfl
        · rfl
      refine ⟨sound.merge mergable.2.symm mergable.1, ?_, ?_⟩
      · rw [ScoreBoardNode1.past_of_ne plain, ScoreBoardNode1.past_of_ne mergable.1]
        rfl
      · rw [same]
        refine ⟨fun q member => ?_, fun n last lost => ?_⟩
        · have passed := points.passed q member
          rw [List.map_append] at passed ⊢
          exact passed
        · cases Option.some.inj last
          exact points.lost p rfl lost
    · rw [if_neg mergable]
      exact ⟨sound, rfl, moved⟩

/-- The traversal ends within the rounds that the board has room for, and leaves a sound board. -/
theorem traverse_spec (dupackThreshold : ℤ) {bound : ℤ} (rounds : ℕ) (sacks : List SackBlock) (thorough : Bool)
    (flag : BitVec 8) (sound : Sound s.sackOut s.fackOut s.fresh (before ++ prev.toList ++ rest) a b)
    (place : Spans ScoreBoardNode1.seq past c rest b) (points : Points s.nxtToRetrx before prev) (inside : b ≤ bound)
    (fack : s.fack < bound) (enough : bound - c < rounds) :
    ∃ next flag' b', traverse dupackThreshold rounds before prev rest sacks thorough s flag = some (next, flag') ∧
      Sound next.sackOut next.fackOut next.fresh next.nodes a b' ∧
      ∀ p ∈ next.nxtToRetrx, p ∈ next.nodes.map ScoreBoardNode1.id := by
  induction rounds generalizing s before prev rest sacks thorough flag b c with
  | zero =>
    have forward := place.le
    omega
  | succ rounds ih =>
    match rest with
    | [] =>
      rw [List.append_nil] at sound
      exact ⟨_, flag, b, rfl, sound, points.passed⟩
    | now :: rest =>
      rw [traverse]
      split_ifs with done
      · rw [List.append_assoc] at sound
        refine ⟨_, flag, b, rfl, sound, fun p member => ?_⟩
        have passed := points.passed p member
        simp only [List.map_append, List.mem_append] at passed ⊢
        tauto
      · obtain ⟨sound', checks⟩ := Visit.process_spec (w := ⟨s, now, rest, sacks, thorough, flag⟩) sound dupackThreshold
        generalize Visit.process ⟨s, now, rest, sacks, thorough, flag⟩ dupackThreshold = w at sound' checks
        have sameFack : w.board.fack = s.fack := checks.fack
        have sameId : w.now.id = now.id := checks.id
        have pointer : w.board.nxtToRetrx = if w.now.flag = .lost then s.nxtToRetrx <|> some now.id else s.nxtToRetrx :=
          checks.nxtToRetrx
        obtain ⟨merged, ends, points'⟩ := mergePrev_spec sound' points
        rw [sameId, ← pointer] at points'
        obtain ⟨c', _, begins, proper, place'⟩ := Intervals.spans_append.mp sound'.spans
        have further : c < w.now.past := by
          have same : w.now.seq = c := checks.seq.trans place.1
          omega
        simp only
        generalize mergePrev before prev w.now = pair at merged ends points'
        obtain ⟨before', prev'⟩ := pair
        simp only at merged ends points' ⊢
        rw [List.append_cons] at merged
        split_ifs with last
        · have whole : w.now.past = b := by
            have nothing := place'
            rw [last.1] at nothing
            exact nothing
          rw [last.1, List.append_nil] at merged
          have start : prev'.getEnd + 1 = b := ends.trans whole
          rw [start]
          have beyond : b ≤ w.board.fack := by omega
          have place'' : Spans ScoreBoardNode1.seq past b [⟨w.board.fresh, .inflight, b, w.board.fack, 0⟩]
              (w.board.fack + 1) := ⟨rfl, Int.lt_add_one_of_le beyond, rfl⟩
          exact ih w.sacks w.thorough w.flag (merged.append beyond) place'' points' (by omega) (by simp only; omega) (by omega)
        · exact ih w.sacks w.thorough w.flag merged place' points' inside (by omega) (by omega)

end Walk

end ScoreBoard1

end Ns2
