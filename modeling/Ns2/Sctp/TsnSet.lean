import Ns2.Sctp.TsnBlocks

namespace Ns2

open Intervals

namespace SctpReceiver

variable {r after : SctpReceiver} {chunk : SctpDataChunk} {passed : List SctpDataChunk} {R : Set ℕ} {tsn newCum : ℕ}

/-- `r` and `s` know of the same TSNs, and have as many streams. -/
structure SameTsns (r s : SctpReceiver) : Prop where
  cumAck : s.cumAck = r.cumAck
  blocks : s.recvTsnBlockList = r.recvTsnBlockList
  highest : s.highestRecvTsn = r.highestRecvTsn
  streams : s.inStreams.length = r.inStreams.length

theorem SameTsns.refl (r : SctpReceiver) : SameTsns r r := ⟨rfl, rfl, rfl, rfl⟩

theorem SameTsns.trans {s t : SctpReceiver} (first : SameTsns r s) (second : SameTsns s t) : SameTsns r t :=
  ⟨second.cumAck.trans first.cumAck, second.blocks.trans first.blocks, second.highest.trans first.highest,
    second.streams.trans first.streams⟩

theorem Arrived.same {s : SctpReceiver} (arrived : Arrived R r) (same : SameTsns r s) : Arrived R s := by
  obtain ⟨cumAck, blocks, highest, _⟩ := same
  exact ⟨cumAck ▸ blocks ▸ arrived.blocks, cumAck ▸ blocks ▸ arrived.members, cumAck ▸ highest ▸ arrived.highest⟩

theorem foldl_passToUpperLayer_same (chunks : List SctpDataChunk) (r : SctpReceiver) :
    SameTsns r (chunks.foldl passToUpperLayer r) := by
  induction chunks generalizing r with
  | nil => exact .refl r
  | cons chunk chunks ih =>
    have step : SameTsns r (r.passToUpperLayer chunk) := ⟨rfl, rfl, rfl, rfl⟩
    exact step.trans (ih _)

theorem updateAllStreams_same (r : SctpReceiver) : SameTsns r (updateAllStreams r).1 := by
  have step : SameTsns r { r with inStreams := (r.inStreams.map (updateStream r.cumAck)).map Prod.fst } :=
    ⟨rfl, rfl, rfl, by simp⟩
  exact step.trans (foldl_passToUpperLayer_same _ _)

theorem passToStream_same (there : chunk.streamId < r.inStreams.length) :
    ∃ after passed, passToStream chunk r = some (after, passed) ∧ SameTsns r after := by
  unfold passToStream
  split_ifs with unordered
  · exact ⟨_, _, rfl, rfl, rfl, rfl, rfl⟩
  · rw [List.getElem?_eq_getElem there]
    exact ⟨_, _, rfl, rfl, rfl, rfl, by simp⟩

/-- `r` with another `uiHighestRecvTsn`, as `UpdateHighestTsn` leaves it. -/
theorem updateHighestTsn_snd : (updateHighestTsn tsn r).2 = { r with highestRecvTsn := max r.highestRecvTsn tsn } := by
  unfold updateHighestTsn
  split_ifs with higher
  · rw [max_eq_right (Nat.le_of_lt higher)]
  · rw [max_eq_left (not_lt.mp higher)]

theorem Arrived.raise (arrived : Arrived R r) (tsn : ℕ) : Arrived R { r with highestRecvTsn := max r.highestRecvTsn tsn } :=
  ⟨arrived.blocks, arrived.members, fun t member late => le_max_of_le_left (arrived.highest t member late)⟩

/-- The test of `ProcessDataChunk` for a chunk it has had. -/
def treatsAsDuplicate (tsn : ℕ) (r : SctpReceiver) : Prop :=
  (updateHighestTsn tsn r).1 = false ∧ isDuplicateChunk tsn (updateHighestTsn tsn r).2 = true

theorem treatsAsDuplicate_iff (arrived : Arrived R r) (positive : 0 < tsn)
    (known : ¬(r.highestRecvTsn < tsn ∧ tsn ≤ r.cumAck)) : treatsAsDuplicate tsn r ↔ tsn ∈ R := by
  have duplicate : isDuplicateChunk tsn _ = true ↔ _ := (arrived.raise tsn).isDuplicateChunk
  rw [treatsAsDuplicate, updateHighestTsn_snd, duplicate, Set.mem_insert_iff, or_iff_right positive.ne']
  refine and_iff_right_of_imp fun member => ?_
  unfold updateHighestTsn
  split_ifs with higher
  · by_cases early : tsn ≤ r.cumAck
    · exact absurd ⟨higher, early⟩ known
    · exact absurd (arrived.highest tsn member (not_le.mp early)) (not_le.mpr higher)
  · rfl

theorem processDataChunk_duplicate (fits : chunk.length ≤ r.myRwnd) (again : treatsAsDuplicate chunk.tsn r) :
    processDataChunk chunk r =
      some ({ r with dupTsnList := insertDuplicateTsn chunk.tsn r.dupTsnList, sackChunkNeeded := true }, []) := by
  have same : (updateHighestTsn chunk.tsn r).2 = r := by
    have low := again.1
    unfold updateHighestTsn at low ⊢
    split_ifs at low ⊢ with higher
    rfl
  unfold processDataChunk
  rw [if_pos fits]
  dsimp only
  exact (if_pos again).trans (by rw [same])

theorem processDataChunk_new (fits : chunk.length ≤ r.myRwnd) (new : ¬treatsAsDuplicate chunk.tsn r) :
    processDataChunk chunk r = acceptChunk chunk (updateHighestTsn chunk.tsn r).2 := by
  unfold processDataChunk
  rw [if_pos fits]
  dsimp only
  exact if_neg new

theorem Arrived.acceptChunk (arrived : Arrived R r) (short : chunk.tsn < 2 ^ 32) (fresh : chunk.tsn ∉ insert 0 R)
    (high : chunk.tsn ≤ r.highestRecvTsn) (there : chunk.streamId < r.inStreams.length) :
    ∃ after passed, acceptChunk chunk r = some (after, passed) ∧ Arrived (insert chunk.tsn R) after := by
  have debited : Arrived R { r with myRwnd := r.myRwnd - chunk.length } := arrived.same ⟨rfl, rfl, rfl, rfl⟩
  obtain ⟨newCum, blocks, updated, put⟩ := debited.updateRecvTsnBlocks short fresh (Or.inl high)
  obtain ⟨mid, direct, given, same⟩ := passToStream_same
    (r := { r with myRwnd := r.myRwnd - chunk.length, cumAck := newCum, recvTsnBlockList := blocks }) there
  refine ⟨(updateAllStreams mid).1, direct ++ (updateAllStreams mid).2, ?_,
    (put.same same).same (updateAllStreams_same mid)⟩
  unfold SctpReceiver.acceptChunk
  rw [updated, Option.bind_eq_bind, Option.bind_some, given]
  rfl

/-- One DATA chunk that finds room. -/
theorem Arrived.processDataChunk (arrived : Arrived R r) (positive : 0 < chunk.tsn) (short : chunk.tsn < 2 ^ 32)
    (fits : chunk.length ≤ r.myRwnd) (there : chunk.streamId < r.inStreams.length)
    (known : ¬(r.highestRecvTsn < chunk.tsn ∧ chunk.tsn ≤ r.cumAck)) :
    ∃ after passed, processDataChunk chunk r = some (after, passed) ∧ Arrived (insert chunk.tsn R) after := by
  by_cases again : treatsAsDuplicate chunk.tsn r
  · have member := (treatsAsDuplicate_iff arrived positive known).mp again
    rw [processDataChunk_duplicate fits again, Set.insert_eq_of_mem member]
    exact ⟨_, _, rfl, arrived.same ⟨rfl, rfl, rfl, rfl⟩⟩
  · have fresh := mt (treatsAsDuplicate_iff arrived positive known).mpr again
    rw [processDataChunk_new fits again, updateHighestTsn_snd]
    refine (arrived.raise chunk.tsn).acceptChunk short ?_ (le_max_right _ _) there
    rintro (zero | member)
    · exact positive.ne' zero
    · exact fresh member

theorem Arrived.skipTsn (arrived : Arrived R r) (positive : 0 < tsn) (short : tsn < 2 ^ 32) (next : tsn ≤ r.cumAck + 1) :
    ∃ after, skipTsn r tsn = some after ∧ Arrived (insert tsn R) after ∧ tsn ≤ after.cumAck ∧
      after.inStreams = r.inStreams := by
  unfold SctpReceiver.skipTsn
  by_cases again : tsn ∈ insert 0 R
  · have member : tsn ∈ R := again.resolve_left positive.ne'
    have low : tsn ≤ r.cumAck := not_lt.mp fun above => arrived.next (by rwa [← show tsn = r.cumAck + 1 by omega])
    rw [arrived.isDuplicateChunk.mpr again, if_neg (by simp), Set.insert_eq_of_mem member]
    exact ⟨r, rfl, arrived, low, rfl⟩
  · rw [Bool.eq_false_iff.mpr (mt arrived.isDuplicateChunk.mp again), if_pos rfl]
    obtain ⟨newCum, blocks, updated, put⟩ := arrived.updateRecvTsnBlocks short again (Or.inr next)
    refine ⟨_, updated, put, put.le_cumAck fun t early => ?_, rfl⟩
    rcases Nat.lt_or_ge r.cumAck t with above | upTo
    · exact Or.inr (Or.inl (by omega))
    · exact Set.insert_subset_insert (Set.subset_insert tsn R) (arrived.upTo upTo)

/-- The loop over the TSNs after `uiCumAck`. -/
theorem Arrived.skipTsns (arrived : Arrived R r) {first count : ℕ} (positive : 0 < first) (next : first ≤ r.cumAck + 1)
    (short : first + count ≤ 2 ^ 32) :
    ∃ after, (List.range' first count).foldlM SctpReceiver.skipTsn r = some after ∧
      Arrived (R ∪ Set.Ico first (first + count)) after ∧ after.inStreams = r.inStreams := by
  induction count generalizing r R first with
  | zero => exact ⟨r, rfl, by simpa using arrived, rfl⟩
  | succ count ih =>
    obtain ⟨mid, skipped, put, reached, streams⟩ := arrived.skipTsn positive (by omega) next
    obtain ⟨after, rest, final, same⟩ := ih put (Nat.succ_pos first) (by omega) (by omega)
    refine ⟨after, by rw [List.range'_succ, List.foldlM_cons, skipped]; exact rest, ?_, same.trans streams⟩
    have union : insert first R ∪ Set.Ico (first + 1) (first + 1 + count) = R ∪ Set.Ico first (first + (count + 1)) := by
      ext t
      simp only [Set.mem_union, Set.mem_insert_iff, Set.mem_Ico, or_assoc, or_left_comm (a := t = first)]
      refine or_congr_right ?_
      omega
    rwa [← union]

/-- The loop of `ProcessForwardTsnChunk` counts up to `uiNewCum` when it does not cross 2 ^ 31. -/
theorem forwardTsns_eq {cumAck : ℕ} (small : cumAck + 1 < 2 ^ 32) (short : newCum < 2 ^ 32) (ends : newCum ≠ 2 ^ 31 - 1)
    (side : cumAck + 1 < 2 ^ 31 ↔ newCum < 2 ^ 31) :
    forwardTsns cumAck newCum = some (List.range' (cumAck + 1) (newCum - cumAck)) := by
  have last : toInt newCum ≠ 2 ^ 31 - 1 := by
    unfold toInt
    split_ifs <;> omega
  have distance : toInt newCum - toInt (cumAck + 1) = newCum - (cumAck + 1 : ℕ) := by
    unfold toInt
    split_ifs <;> omega
  have residue : ∀ k < newCum - cumAck, ((toInt (cumAck + 1) + k) % 2 ^ 32).toNat = cumAck + 1 + k := by
    intro k inside
    unfold toInt
    split_ifs <;> omega
  have count : (toInt newCum - toInt (cumAck + 1) + 1).toNat = newCum - cumAck := by omega
  unfold forwardTsns
  dsimp only
  rw [succInt_eq small, if_neg last, count, List.range'_eq_map_range]
  exact congrArg some (List.map_congr_left fun k member => residue k (List.mem_range.mp member))

theorem forwardTsns_some (cumAck : ℕ) (short : newCum < 2 ^ 32) (ends : newCum ≠ 2 ^ 31 - 1) :
    ∃ tsns, forwardTsns cumAck newCum = some tsns ∧ ∀ t ∈ tsns, t < 2 ^ 32 := by
  have last : toInt newCum ≠ 2 ^ 31 - 1 := by
    unfold toInt
    split_ifs <;> omega
  unfold forwardTsns
  dsimp only
  rw [if_neg last]
  refine ⟨_, rfl, fun t member => ?_⟩
  obtain ⟨k, _, rfl⟩ := List.mem_map.mp member
  omega

/-- All the TSNs there are have been had, so the loop finds nothing to skip. -/
theorem Arrived.skipTsns_full (arrived : Arrived R r) {tsns : List ℕ} (had : ∀ t ∈ tsns, t ≤ r.cumAck) :
    tsns.foldlM SctpReceiver.skipTsn r = some r := by
  induction tsns with
  | nil => rfl
  | cons t tsns ih =>
    obtain ⟨first, rest⟩ := List.forall_mem_cons.mp had
    rw [List.foldlM_cons, SctpReceiver.skipTsn, arrived.isDuplicateChunk.mpr (arrived.upTo first), if_neg (by simp)]
    exact ih rest

/-- A FORWARD TSN chunk whose loop counts from `uiCumAck + 1` up to `uiNewCum`. -/
def Counts (cumAck newCum : ℕ) : Prop :=
  newCum ≠ 2 ^ 31 - 1 ∧ (cumAck = 2 ^ 32 - 1 ∨ (cumAck + 1 < 2 ^ 31 ↔ newCum < 2 ^ 31))

instance (cumAck newCum : ℕ) : Decidable (Counts cumAck newCum) := inferInstanceAs (Decidable (_ ∧ _))

theorem Arrived.processForwardTsnChunk (arrived : Arrived R r) (short : newCum < 2 ^ 32) (counts : Counts r.cumAck newCum) :
    ∃ after passed, processForwardTsnChunk newCum r = some (after, passed) ∧ Arrived (R ∪ Set.Icc 1 newCum) after ∧
      after.inStreams.length = r.inStreams.length := by
  have bound : r.cumAck < 2 ^ 32 := arrived.blocks.short _ List.mem_cons_self
  obtain ⟨ends, side⟩ := counts
  have skips : ∃ tsns after, forwardTsns r.cumAck newCum = some tsns ∧ tsns.foldlM SctpReceiver.skipTsn r = some after ∧
      Arrived (R ∪ Set.Icc 1 newCum) after ∧ after.inStreams = r.inStreams := by
    have had : newCum ≤ r.cumAck → R ∪ Set.Icc 1 newCum = R := fun upTo =>
      Set.union_eq_self_of_subset_right fun t inside =>
        (arrived.upTo (inside.2.trans upTo)).resolve_left (Nat.one_le_iff_ne_zero.mp inside.1)
    by_cases full : r.cumAck = 2 ^ 32 - 1
    · obtain ⟨tsns, made, all⟩ := forwardTsns_some r.cumAck short ends
      refine ⟨tsns, r, made, arrived.skipTsns_full fun t member => ?_, (by rw [had (by omega)]; exact arrived), rfl⟩
      have := all t member
      omega
    · have small : r.cumAck + 1 < 2 ^ 32 := by omega
      refine ⟨List.range' (r.cumAck + 1) (newCum - r.cumAck), ?_⟩
      rw [forwardTsns_eq small short ends (side.resolve_left full)]
      rcases Nat.le_total newCum r.cumAck with upTo | above
      · rw [Nat.sub_eq_zero_of_le upTo, had upTo]
        exact ⟨r, rfl, rfl, arrived, rfl⟩
      · obtain ⟨after, done, put, streams⟩ := arrived.skipTsns (Nat.succ_pos _) le_rfl
          (by omega : r.cumAck + 1 + (newCum - r.cumAck) ≤ 2 ^ 32)
        refine ⟨after, rfl, done, ?_, streams⟩
        have same : R ∪ Set.Ico (r.cumAck + 1) (r.cumAck + 1 + (newCum - r.cumAck)) = R ∪ Set.Icc 1 newCum := by
          ext t
          simp only [Set.mem_union, Set.mem_Ico, Set.mem_Icc]
          constructor
          · exact Or.imp_right fun inside => by omega
          · rintro (member | inside)
            · exact Or.inl member
            · by_cases early : t ≤ r.cumAck
              · exact Or.inl ((arrived.upTo early).resolve_left (by omega))
              · exact Or.inr (by omega)
        rwa [← same]
  obtain ⟨tsns, mid, listed, done, put, streams⟩ := skips
  have same := updateAllStreams_same mid
  refine ⟨(updateAllStreams mid).1, (updateAllStreams mid).2, ?_, put.same same, same.streams.trans (congrArg List.length streams)⟩
  unfold SctpReceiver.processForwardTsnChunk
  rw [listed, Option.bind_eq_bind, Option.bind_some, done]
  rfl

/-- `b` is a run of TSNs of `R` that is as long as it can be. -/
structure MaximalRun (R : Set ℕ) (b : SctpRecvTsnBlock) : Prop where
  ordered : b.startTsn ≤ b.endTsn
  inside : ∀ t, b.startTsn ≤ t → t ≤ b.endTsn → t ∈ R
  before : b.startTsn - 1 ∉ R
  behind : b.endTsn + 1 ∉ R

/-- Two such runs do not overlap. -/
theorem MaximalRun.eq_of_mem {b c : SctpRecvTsnBlock} (run : MaximalRun R b) (other : MaximalRun R c) {t : ℕ}
    (inRun : b.startTsn ≤ t ∧ t ≤ b.endTsn) (inOther : c.startTsn ≤ t ∧ t ≤ c.endTsn) : b = c := by
  have starts : ¬c.startTsn < b.startTsn := fun less => run.before (other.inside _ (by omega) (by omega))
  have starts' : ¬b.startTsn < c.startTsn := fun less => other.before (run.inside _ (by omega) (by omega))
  have ends : ¬b.endTsn < c.endTsn := fun less => run.behind (other.inside _ (by omega) (by omega))
  have ends' : ¬c.endTsn < b.endTsn := fun less => other.behind (run.inside _ (by omega) (by omega))
  cases b
  cases c
  simp only [SctpRecvTsnBlock.mk.injEq]
  dsimp only at starts starts' ends ends'
  omega

/-- What the receiver is to know of the TSNs that arrived or were skipped. -/
structure Represents (R : Set ℕ) (r : SctpReceiver) : Prop where
  upTo : ∀ t, 1 ≤ t → t ≤ r.cumAck → t ∈ R
  next : r.cumAck + 1 ∉ R
  runs : ∀ b, b ∈ r.recvTsnBlockList ↔ MaximalRun R b ∧ r.cumAck < b.startTsn
  sorted : r.recvTsnBlockList.Pairwise fun a b => a.endTsn + 1 < b.startTsn

theorem Arrived.mem_of_block (arrived : Arrived R r) {b : SctpRecvTsnBlock} (member : b ∈ r.recvTsnBlockList) {t : ℕ}
    (first : b.startTsn ≤ t) (last : t ≤ b.endTsn) : t ∈ R := by
  have after := arrived.blocks.after member
  have covered : t ∈ insert 0 R :=
    arrived.members ▸ ⟨b, List.mem_cons_of_mem _ member, first, Nat.lt_succ_iff.mpr last⟩
  exact covered.resolve_left (by omega)

theorem Arrived.block_of_mem (arrived : Arrived R r) {t : ℕ} (member : t ∈ R) (late : r.cumAck < t) :
    ∃ b ∈ r.recvTsnBlockList, b.startTsn ≤ t ∧ t ≤ b.endTsn := by
  have covered : t ∈ insert 0 R := Or.inr member
  rw [← arrived.members] at covered
  obtain ⟨b, inside, first, last⟩ := covered
  rcases List.mem_cons.mp inside with rfl | block
  · exact absurd (Nat.lt_succ_iff.mp last) (not_le.mpr late)
  · exact ⟨b, block, first, Nat.lt_succ_iff.mp last⟩

theorem Arrived.maximalRun (arrived : Arrived R r) {b : SctpRecvTsnBlock} (member : b ∈ r.recvTsnBlockList) : MaximalRun R b := by
  have after := arrived.blocks.after member
  have ordered := arrived.blocks.ordered member
  -- A TSN next to the block would be in another one that adjoins it.
  have alone : ∀ t ∈ R, r.cumAck < t → t + 1 = b.startTsn ∨ t = b.endTsn + 1 → False := by
    intro t had late beside
    obtain ⟨c, other, first, last⟩ := arrived.block_of_mem had late
    rcases arrived.blocks.separated.eq_or_apart (List.mem_cons_of_mem _ member) (List.mem_cons_of_mem _ other) with
      rfl | apart | apart
    · omega
    · unfold pastTsn at apart
      omega
    · unfold pastTsn at apart
      omega
  exact ⟨ordered, fun t => arrived.mem_of_block member, fun had => alone _ had (by omega) (Or.inl (by omega)),
    fun had => alone _ had (by omega) (Or.inr rfl)⟩

theorem Arrived.represents (arrived : Arrived R r) : Represents R r where
  upTo t positive early := (arrived.upTo early).resolve_left (by omega)
  next had := arrived.next (Or.inr had)
  runs b := by
    constructor
    · intro member
      have after := arrived.blocks.after member
      exact ⟨arrived.maximalRun member, by omega⟩
    · rintro ⟨run, late⟩
      have ordered := run.ordered
      obtain ⟨c, block, first, last⟩ := arrived.block_of_mem (run.inside _ le_rfl ordered) late
      exact run.eq_of_mem (arrived.maximalRun block) ⟨le_rfl, ordered⟩ ⟨first, last⟩ ▸ block
  sorted := (List.pairwise_cons.mp arrived.blocks.separated.apart).2

/-- The TSNs that came in a DATA chunk or were skipped by a FORWARD TSN chunk. -/
def tsnsOf (chunks : List Chunk) : Set ℕ :=
  {t | ∃ arrival ∈ chunks, match arrival with
    | .data chunk => t = chunk.tsn
    | .forwardTsn newCum => 1 ≤ t ∧ t ≤ newCum}

/-- A chunk whose TSNs have 32 bits; a DATA chunk finds room, and its stream is there. -/
def Admitted (r : SctpReceiver) : Chunk → Prop
  | .data chunk => 0 < chunk.tsn ∧ chunk.tsn < 2 ^ 32 ∧ chunk.length ≤ r.myRwnd ∧ chunk.streamId < r.inStreams.length
  | .forwardTsn newCum => newCum < 2 ^ 32

/-- No DATA chunk has a TSN up to `uiCumAck` that is higher than all TSNs of DATA chunks
before, and the `int` counter of a FORWARD TSN chunk stays on one side of zero. -/
def Tracked (r : SctpReceiver) : Chunk → Prop
  | .data chunk => ¬(r.highestRecvTsn < chunk.tsn ∧ chunk.tsn ≤ r.cumAck)
  | .forwardTsn newCum => Counts r.cumAck newCum

instance Admitted.decidable (r : SctpReceiver) : ∀ arrival, Decidable (Admitted r arrival)
  | .data _ => inferInstanceAs (Decidable (_ ∧ _))
  | .forwardTsn newCum => inferInstanceAs (Decidable (newCum < 2 ^ 32))

instance Tracked.decidable (r : SctpReceiver) : ∀ arrival, Decidable (Tracked r arrival)
  | .data _ => inferInstanceAs (Decidable ¬_)
  | .forwardTsn newCum => inferInstanceAs (Decidable (Counts r.cumAck newCum))

theorem tsnsOf_append_data (chunks : List Chunk) (chunk : SctpDataChunk) :
    tsnsOf (chunks ++ [.data chunk]) = insert chunk.tsn (tsnsOf chunks) := by
  ext t
  simp [tsnsOf, or_and_right, exists_or, or_comm]

theorem tsnsOf_append_forwardTsn (chunks : List Chunk) (newCum : ℕ) :
    tsnsOf (chunks ++ [.forwardTsn newCum]) = tsnsOf chunks ∪ Set.Icc 1 newCum := by
  ext t
  simp [tsnsOf, or_and_right, exists_or, Set.mem_Icc]

theorem make_arrived (initialRwnd : ℕ) (modes : List SctpStreamMode) : Arrived (tsnsOf []) (make initialRwnd modes) where
  blocks := ⟨⟨by simp [received, make, pastTsn], by simp [received, make]⟩, by simp [received, make]⟩
  members := by
    ext t
    simp [cover, received, make, pastTsn, tsnsOf]
  highest := by simp [tsnsOf]

theorem Arrived.processChunk {chunks : List Chunk} {arrival : Chunk} (arrived : Arrived (tsnsOf chunks) r)
    (admitted : Admitted r arrival) (tracked : Tracked r arrival) :
    ∃ after passed, processChunk r arrival = some (after, passed) ∧ Arrived (tsnsOf (chunks ++ [arrival])) after := by
  cases arrival with
  | data chunk =>
    obtain ⟨positive, short, fits, there⟩ := admitted
    rw [tsnsOf_append_data]
    exact arrived.processDataChunk positive short fits there tracked
  | forwardTsn newCum =>
    obtain ⟨after, passed, done, put, _⟩ := arrived.processForwardTsnChunk admitted tracked
    rw [tsnsOf_append_forwardTsn]
    exact ⟨after, passed, done, put⟩

theorem run_arrived {chunks : List Chunk} (initialRwnd : ℕ) (modes : List SctpStreamMode)
    (along : machine.Along (fun r arrival => Admitted r arrival ∧ Tracked r arrival) (make initialRwnd modes) chunks) :
    ∃ last passed, machine.run (make initialRwnd modes) chunks = some (last, passed) ∧ Arrived (tsnsOf chunks) last := by
  have step : ∀ (s : SctpReceiver) (seen : List Chunk) (i : Chunk), Arrived (tsnsOf seen) s → Admitted s i ∧ Tracked s i →
      ∃ next out, machine.step s i = some (next, out) ∧ Arrived (tsnsOf (seen ++ [i])) next :=
    fun s seen i arrived met => arrived.processChunk met.1 met.2
  exact Machine.run_inputs step (make_arrived initialRwnd modes) along

/-- After every run of such chunks the receiver knows exactly the TSNs that arrived or were
skipped, and a further DATA chunk is a duplicate to it exactly if its TSN is one of them. -/
theorem run_tracksTsns (initialRwnd : ℕ) (modes : List SctpStreamMode) (chunks : List Chunk)
    (admitted : machine.Along Admitted (make initialRwnd modes) chunks)
    (tracked : machine.Along Tracked (make initialRwnd modes) chunks) :
    ∃ last passed, machine.run (make initialRwnd modes) chunks = some (last, passed) ∧
      Represents (tsnsOf chunks) last ∧
      ∀ chunk, Admitted last (.data chunk) → Tracked last (.data chunk) →
        (chunk.tsn ∈ tsnsOf chunks → processDataChunk chunk last =
          some ({ last with dupTsnList := insertDuplicateTsn chunk.tsn last.dupTsnList, sackChunkNeeded := true }, [])) ∧
        (chunk.tsn ∉ tsnsOf chunks → processDataChunk chunk last = acceptChunk chunk (updateHighestTsn chunk.tsn last).2) := by
  obtain ⟨last, passed, run, arrived⟩ := run_arrived initialRwnd modes (admitted.and tracked)
  refine ⟨last, passed, run, arrived.represents, fun chunk ⟨positive, _, fits, _⟩ known => ⟨fun had => ?_, fun new => ?_⟩⟩
  · exact processDataChunk_duplicate fits ((treatsAsDuplicate_iff arrived positive known).mpr had)
  · exact processDataChunk_new fits (mt (treatsAsDuplicate_iff arrived positive known).mp new)

theorem run_tracksTsns_sample :
    let chunks := [Chunk.data ⟨3, 0, 2, 20, false⟩, .data ⟨1, 0, 0, 20, false⟩, .forwardTsn 2, .data ⟨5, 0, 4, 20, false⟩]
    ∃ last passed, machine.run (make 100 [.unreliable]) chunks = some (last, passed) ∧ Represents (tsnsOf chunks) last := by
  obtain ⟨last, passed, run, represents, _⟩ := run_tracksTsns 100 [.unreliable]
    [.data ⟨3, 0, 2, 20, false⟩, .data ⟨1, 0, 0, 20, false⟩, .forwardTsn 2, .data ⟨5, 0, 4, 20, false⟩]
    (by decide +kernel) (by decide +kernel)
  exact ⟨last, passed, run, represents⟩

/-- TSN 1 comes after it was skipped: it is taken for a new one, and gets a block below `uiCumAck`. -/
theorem skipped_accepted :
    let chunks := [Chunk.forwardTsn 2, .data ⟨1, 0, 0, 20, false⟩]
    machine.Along Admitted (make 100 [.unreliable]) chunks ∧
      ∃ last, machine.run (make 100 [.unreliable]) chunks = some (last, [[], [⟨1, 0, 0, 20, false⟩]]) ∧
        last.cumAck = 2 ∧ last.recvTsnBlockList = [⟨1, 1⟩] ∧ ¬Represents (tsnsOf chunks) last := by
  refine ⟨by decide +kernel, ⟨100, 2, 1, [⟨1, 1⟩], [], [⟨.unreliable, 1, []⟩], false⟩, by decide +kernel, rfl, rfl, ?_⟩
  intro represents
  have late := ((represents.runs ⟨1, 1⟩).mp (List.mem_singleton_self _)).2
  exact absurd late (by decide)

end SctpReceiver

end Ns2
