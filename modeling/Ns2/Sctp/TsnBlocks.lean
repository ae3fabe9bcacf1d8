import Ns2.Sctp.Receiver

namespace Ns2

open Intervals

namespace SctpReceiver

/-- The end of a block, as the bound of a half-open interval. -/
def pastTsn (b : SctpRecvTsnBlock) : ℕ := b.endTsn + 1

/-- The block list behind `uiCumAck`, which stands for a block of its own. -/
def received (cumAck : ℕ) (blocks : List SctpRecvTsnBlock) : List SctpRecvTsnBlock := ⟨0, cumAck⟩ :: blocks

variable {tsn cumAck low : ℕ} {blocks passed rest : List SctpRecvTsnBlock} {r : SctpReceiver}

theorem succInt_eq {n : ℕ} (small : n + 1 < 2 ^ 32) : succInt n = n + 1 := Nat.mod_eq_of_lt small

theorem predInt_eq {n : ℕ} (positive : 0 < n) (small : n < 2 ^ 32) : predInt n = n - 1 := by
  unfold predInt
  omega

/-- The blocks are apart, and end at TSNs of 32 bits. -/
structure Blocks (cumAck : ℕ) (blocks : List SctpRecvTsnBlock) : Prop where
  separated : Separated SctpRecvTsnBlock.startTsn pastTsn (received cumAck blocks)
  short : ∀ b ∈ received cumAck blocks, b.endTsn < 2 ^ 32

namespace Blocks

theorem after (valid : Blocks cumAck blocks) {b : SctpRecvTsnBlock} (member : b ∈ blocks) : cumAck + 1 < b.startTsn :=
  (List.pairwise_cons.mp valid.separated.apart).1 b member

theorem ordered (valid : Blocks cumAck blocks) {b : SctpRecvTsnBlock} (member : b ∈ blocks) : b.startTsn ≤ b.endTsn :=
  Nat.lt_succ_iff.mp (valid.separated.nonempty b (List.mem_cons_of_mem _ member))

theorem startTsn_lt (valid : Blocks cumAck blocks) {b : SctpRecvTsnBlock} (member : b ∈ blocks) : b.startTsn < 2 ^ 32 :=
  (valid.ordered member).trans_lt (valid.short b (List.mem_cons_of_mem _ member))

/-- No block adjoins `uiCumAck`, so there is nothing to carry it over. -/
theorem updateCumAck (valid : Blocks cumAck blocks) : updateCumAck cumAck blocks = cumAck := by
  cases blocks with
  | nil => rfl
  | cons b rest =>
    have apart := valid.after List.mem_cons_self
    have bound := valid.startTsn_lt List.mem_cons_self
    rw [SctpReceiver.updateCumAck, succInt_eq (by omega), if_neg (by omega)]

theorem withCumAck (valid : Blocks cumAck blocks) : withCumAck cumAck blocks = (cumAck, blocks) := by
  rw [SctpReceiver.withCumAck, valid.updateCumAck]

end Blocks

/-- The last block passed by the loop of `UpdateRecvTsnBlocks`, or `uiCumAck` in its place. -/
def lastPassed (cumAck : ℕ) : List SctpRecvTsnBlock → SctpRecvTsnBlock
  | [] => ⟨0, cumAck⟩
  | prev :: _ => prev

def beforeLast (cumAck : ℕ) : List SctpRecvTsnBlock → List SctpRecvTsnBlock
  | [] => []
  | _ :: before => received cumAck before.reverse

theorem received_passed (cumAck : ℕ) (passed rest : List SctpRecvTsnBlock) :
    received cumAck (passed.reverse ++ rest) = beforeLast cumAck passed ++ lastPassed cumAck passed :: rest := by
  cases passed with
  | nil => rfl
  | cons prev before => simp [received, beforeLast, lastPassed]

/-- The state of the loop: all that it has passed is below the TSN, and `uiLow` follows it. -/
structure Passed (tsn cumAck : ℕ) (passed : List SctpRecvTsnBlock) (low : ℕ) (rest : List SctpRecvTsnBlock) : Prop where
  valid : Blocks cumAck (passed.reverse ++ rest)
  fresh : tsn ∉ cover SctpRecvTsnBlock.startTsn pastTsn (received cumAck (passed.reverse ++ rest))
  below : (lastPassed cumAck passed).endTsn < tsn
  low : low = (lastPassed cumAck passed).endTsn + 1

/-- The outcome: the TSN is put in between what is below it and what is above it. -/
def Inserted (tsn : ℕ) (blocks result : List SctpRecvTsnBlock) : Prop :=
  ∃ m, Absorbs SctpRecvTsnBlock.startTsn pastTsn tsn (tsn + 1) blocks m result

theorem Inserted.of_parts {below mid above : List SctpRecvTsnBlock} {m : SctpRecvTsnBlock}
    (under : ∀ b ∈ below, b.startTsn < pastTsn b ∧ pastTsn b < tsn)
    (touching : ∀ b ∈ mid, tsn ≤ pastTsn b ∧ b.startTsn ≤ tsn + 1)
    (beyond : ∀ b ∈ above, b.startTsn < pastTsn b ∧ tsn + 1 < b.startTsn) (left : m.startTsn ≤ tsn) (right : tsn + 1 ≤ pastTsn m)
    (inside : ∀ b ∈ mid, m.startTsn ≤ b.startTsn ∧ pastTsn b ≤ pastTsn m)
    (leftmost : m.startTsn = tsn ∨ ∃ b ∈ mid, b.startTsn = m.startTsn)
    (rightmost : pastTsn m = tsn + 1 ∨ ∃ b ∈ mid, pastTsn b = pastTsn m) :
    Inserted tsn (below ++ mid ++ above) (below ++ m :: above) :=
  ⟨m, .of_parts (lt_add_one tsn) under touching beyond left right inside leftmost rightmost⟩

namespace Passed

variable {curr : SctpRecvTsnBlock}

theorem separated (state : Passed tsn cumAck passed low rest) :
    Separated SctpRecvTsnBlock.startTsn pastTsn (beforeLast cumAck passed ++ lastPassed cumAck passed :: rest) :=
  received_passed cumAck passed rest ▸ state.valid.separated

theorem before_below (state : Passed tsn cumAck passed low rest) :
    ∀ b ∈ beforeLast cumAck passed, b.startTsn < pastTsn b ∧ pastTsn b < tsn := by
  intro b member
  have apart := (List.pairwise_append.mp state.separated.apart).2.2 b member _ List.mem_cons_self
  have proper := state.separated.nonempty _ (List.mem_append_right _ List.mem_cons_self)
  have below := state.below
  refine ⟨state.separated.nonempty b (List.mem_append_left _ member), ?_⟩
  unfold pastTsn at proper ⊢ apart
  omega

theorem last_ordered (state : Passed tsn cumAck passed low rest) :
    (lastPassed cumAck passed).startTsn ≤ (lastPassed cumAck passed).endTsn :=
  Nat.lt_succ_iff.mp (state.separated.nonempty _ (List.mem_append_right _ List.mem_cons_self))

theorem rest_ordered (state : Passed tsn cumAck passed low rest) {b : SctpRecvTsnBlock} (member : b ∈ rest) :
    b.startTsn < pastTsn b :=
  state.separated.nonempty b (List.mem_append_right _ (List.mem_cons_of_mem _ member))

theorem rest_above (state : Passed tsn cumAck passed low (curr :: rest)) :
    ∀ b ∈ rest, b.startTsn < pastTsn b ∧ pastTsn curr < b.startTsn := by
  intro b member
  have later := (List.pairwise_append.mp state.separated.apart).2.1
  exact ⟨state.rest_ordered (List.mem_cons_of_mem _ member),
    (List.pairwise_cons.mp (List.pairwise_cons.mp later).2).1 b member⟩

theorem last_below (state : Passed tsn cumAck passed low (curr :: rest)) : low < curr.startTsn := by
  have later := (List.pairwise_append.mp state.separated.apart).2.1
  have apart := (List.pairwise_cons.mp later).1 curr List.mem_cons_self
  rw [state.low]
  exact apart

/-- `uiTsn` borders on the last block at most. -/
theorem join_last (state : Passed tsn cumAck passed low rest) (borders : tsn = low)
    (beyond : ∀ b ∈ rest, tsn + 1 < b.startTsn) :
    Inserted tsn (received cumAck (passed.reverse ++ rest))
      (beforeLast cumAck passed ++ { lastPassed cumAck passed with endTsn := tsn } :: rest) := by
  have start := state.low
  have ordered := state.last_ordered
  rw [received_passed, ← List.singleton_append, ← List.append_assoc]
  refine .of_parts state.before_below ?_ (fun b member => ⟨state.rest_ordered member, beyond b member⟩) ?_ (le_refl _) ?_
    (Or.inr ⟨_, List.mem_singleton_self _, rfl⟩) (Or.inl rfl)
  · simp only [List.mem_singleton, forall_eq, pastTsn]
    omega
  · dsimp only
    omega
  · simp only [List.mem_singleton, forall_eq, pastTsn]
    omega

theorem passed_below (state : Passed tsn cumAck passed low rest) (apart : low < tsn) :
    ∀ b ∈ beforeLast cumAck passed ++ [lastPassed cumAck passed], b.startTsn < pastTsn b ∧ pastTsn b < tsn := by
  intro b member
  have start := state.low
  have last := state.last_ordered
  rcases List.mem_append.mp member with front | same
  · exact state.before_below b front
  · cases List.mem_singleton.mp same
    unfold pastTsn
    omega

/-- `uiTsn` borders on the next block only. -/
theorem join_next (state : Passed tsn cumAck passed low (curr :: rest)) (apart : low < tsn) (borders : tsn + 1 = curr.startTsn) :
    Inserted tsn (received cumAck (passed.reverse ++ curr :: rest))
      (received cumAck (passed.reverse ++ { curr with startTsn := tsn } :: rest)) := by
  have ordered := state.rest_ordered (List.mem_cons_self (a := curr))
  have above := state.rest_above
  rw [received_passed, received_passed, List.append_cons _ _ (curr :: rest), List.append_cons _ _ (_ :: rest),
    ← List.singleton_append (l := rest) (x := curr), ← List.append_assoc (_ ++ _) [curr]]
  refine .of_parts (state.passed_below apart) ?_ (fun b member => ⟨(above b member).1, ?_⟩) (le_refl _) ?_ ?_ (Or.inl rfl)
    (Or.inr ⟨curr, List.mem_singleton_self _, rfl⟩)
  · simp only [List.mem_singleton, forall_eq]
    omega
  · have := (above b member).2
    omega
  · simp only [pastTsn] at ordered ⊢
    omega
  · simp only [List.mem_singleton, forall_eq, pastTsn]
    omega

/-- `uiTsn` borders on no block. -/
theorem between (state : Passed tsn cumAck passed low rest) (apart : low < tsn) (beyond : ∀ b ∈ rest, tsn + 1 < b.startTsn) :
    Inserted tsn (received cumAck (passed.reverse ++ rest)) (received cumAck (passed.reverse ++ ⟨tsn, tsn⟩ :: rest)) := by
  have parts : Inserted tsn ((beforeLast cumAck passed ++ [lastPassed cumAck passed]) ++ [] ++ rest)
      ((beforeLast cumAck passed ++ [lastPassed cumAck passed]) ++ ⟨tsn, tsn⟩ :: rest) :=
    .of_parts (state.passed_below apart) (by simp) (fun b member => ⟨state.rest_ordered member, beyond b member⟩) (le_refl _)
      (le_refl _) (by simp) (Or.inl rfl) (Or.inl rfl)
  rw [received_passed, received_passed, List.append_cons _ _ rest, List.append_cons _ _ (_ :: rest)]
  rwa [List.append_nil] at parts

/-- `uiTsn` fills the gap between the last block and the next. -/
theorem fill_gap (state : Passed tsn cumAck passed low (curr :: rest)) (borders : tsn = low)
    (next : tsn + 1 = curr.startTsn) :
    Inserted tsn (received cumAck (passed.reverse ++ curr :: rest))
      (beforeLast cumAck passed ++ { lastPassed cumAck passed with endTsn := curr.endTsn } :: rest) := by
  have start := state.low
  have ordered := state.last_ordered
  have proper := state.rest_ordered (List.mem_cons_self (a := curr))
  have above := state.rest_above
  have split : lastPassed cumAck passed :: curr :: rest = [lastPassed cumAck passed, curr] ++ rest := rfl
  rw [received_passed, split, ← List.append_assoc]
  refine .of_parts state.before_below ?_ (fun b member => ⟨(above b member).1, ?_⟩) ?_ ?_ ?_
    (Or.inr ⟨_, List.mem_cons_self, rfl⟩) (Or.inr ⟨curr, List.mem_cons_of_mem _ List.mem_cons_self, rfl⟩)
  · simp only [List.forall_mem_cons, List.not_mem_nil, false_implies, implies_true, and_true, pastTsn] at proper ⊢
    omega
  · have := (above b member).2
    omega
  · dsimp only
    omega
  · simp only [pastTsn] at proper ⊢
    omega
  · simp only [List.forall_mem_cons, List.not_mem_nil, false_implies, implies_true, and_true, pastTsn] at proper ⊢
    omega

/-- The loop goes on to a block that ends below the TSN. -/
theorem next (state : Passed tsn cumAck passed low (curr :: rest)) (short : tsn < 2 ^ 32)
    (outside : ¬(low ≤ tsn ∧ tsn ≤ predInt curr.startTsn)) :
    Passed tsn cumAck (curr :: passed) (succInt curr.endTsn) rest := by
  have same : (curr :: passed).reverse ++ rest = passed.reverse ++ curr :: rest := by simp
  have start := state.low
  have below := state.below
  have after := state.last_below
  have bound := state.valid.startTsn_lt (List.mem_append_right passed.reverse List.mem_cons_self)
  rw [predInt_eq (by omega) bound] at outside
  -- `uiTsn` is not below the block, and not in it either.
  have past : ¬tsn < pastTsn curr := fun inside =>
    state.fresh ⟨curr, List.mem_cons_of_mem _ (List.mem_append_right _ List.mem_cons_self), by omega, inside⟩
  unfold pastTsn at past
  exact ⟨same ▸ state.valid, same ▸ state.fresh, (by omega : curr.endTsn < tsn), succInt_eq (by omega)⟩

end Passed

theorem Blocks.of_inserted {newCum : ℕ} {result : List SctpRecvTsnBlock} (valid : Blocks cumAck blocks) (short : tsn < 2 ^ 32)
    (inserted : Inserted tsn (received cumAck blocks) (received newCum result)) : Blocks newCum result := by
  obtain ⟨m, absorbs⟩ := inserted
  refine ⟨absorbs.separated valid.separated (lt_add_one tsn), fun b member => ?_⟩
  rcases absorbs.mem.mp member with ⟨old, _⟩ | rfl | ⟨old, _⟩
  · exact valid.short b old
  · rcases absorbs.rightmost with same | ⟨c, old, _, same⟩
    · have := Nat.succ_injective same
      omega
    · rw [← Nat.succ_injective same]
      exact valid.short c old
  · exact valid.short b old

/-- `UpdateCumAck` changes nothing after the TSN was put in. -/
theorem Blocks.close {newCum : ℕ} {result : List SctpRecvTsnBlock} (valid : Blocks cumAck blocks) (short : tsn < 2 ^ 32)
    (inserted : Inserted tsn (received cumAck blocks) (received newCum result)) :
    ∃ updated, some (SctpReceiver.withCumAck newCum result) = some updated ∧
      Inserted tsn (received cumAck blocks) (received updated.1 updated.2) := by
  rw [(valid.of_inserted short inserted).withCumAck]
  exact ⟨_, rfl, inserted⟩

/-- What `UpdateRecvTsnBlocks` makes of the list: the TSN is put in. -/
theorem updateTsnBlocksFrom_inserted (short : tsn < 2 ^ 32) (state : Passed tsn cumAck passed low rest) :
    ∃ updated, updateTsnBlocksFrom tsn cumAck passed low rest = some updated ∧
      Inserted tsn (received cumAck (passed.reverse ++ rest)) (received updated.1 updated.2) := by
  have start := state.low
  have below := state.below
  induction rest generalizing passed low with
  | nil =>
    rw [updateTsnBlocksFrom.eq_def]
    dsimp only
    by_cases borders : tsn = low
    · have inserted := state.join_last borders (by simp)
      rw [if_pos borders]
      cases passed with
      | nil =>
        have last : low = cumAck + 1 := start
        rw [if_pos (by rw [succInt_eq (by omega)]; omega)]
        exact state.valid.close short inserted
      | cons prev before =>
        have last : low = prev.endTsn + 1 := start
        have after := state.valid.after (b := prev) (by simp)
        have ordered := state.valid.ordered (b := prev) (by simp)
        rw [if_neg (by rw [succInt_eq (by omega)]; omega)]
        refine ⟨_, rfl, ?_⟩
        rw [succInt_eq (by omega), ← last, ← borders]
        simpa [received, beforeLast, lastPassed] using inserted
    · rw [if_neg borders]
      exact ⟨_, rfl, state.between (by omega) (by simp)⟩
  | cons curr rest ih =>
    have gap := state.last_below
    have bound := state.valid.startTsn_lt (List.mem_append_right passed.reverse (List.mem_cons_self (a := curr)))
    have proper := state.rest_ordered (List.mem_cons_self (a := curr))
    have above := state.rest_above
    rw [updateTsnBlocksFrom.eq_def]
    dsimp only
    by_cases inside : low ≤ tsn ∧ tsn ≤ predInt curr.startTsn
    · rw [if_pos inside]
      rw [predInt_eq (by omega) bound] at inside ⊢
      rw [Nat.mod_eq_of_lt (by omega : curr.startTsn - 1 - low + 1 < 2 ^ 32)]
      by_cases wide : curr.startTsn - 1 - low + 1 > 1
      · rw [if_pos wide]
        by_cases borders : tsn = curr.startTsn - 1
        · rw [if_pos borders]
          exact state.valid.close short (state.join_next (by omega) (by omega))
        rw [if_neg borders]
        have beyond : ∀ b ∈ curr :: rest, tsn + 1 < b.startTsn := List.forall_mem_cons.mpr ⟨by omega, fun b member => by
          have := (above b member).2
          omega⟩
        by_cases follows : tsn = low
        · rw [if_pos follows]
          have inserted := state.join_last follows beyond
          cases passed with
          | nil =>
            have last : low = cumAck + 1 := start
            rw [succInt_eq (by omega), if_pos (by omega), ← last, ← follows]
            exact state.valid.close short inserted
          | cons prev before =>
            have last : low = prev.endTsn + 1 := start
            have after := state.valid.after (b := prev) (by simp)
            have ordered := state.valid.ordered (b := prev) (by simp)
            rw [if_neg (by rw [succInt_eq (by omega)]; omega)]
            refine state.valid.close short ?_
            simpa [received, beforeLast, lastPassed] using inserted
        · rw [if_neg follows]
          exact ⟨_, rfl, state.between (by omega) beyond⟩
      · rw [if_neg wide]
        have inserted := state.fill_gap (by omega) (by omega)
        cases passed with
        | nil =>
          have last : low = cumAck + 1 := start
          rw [succInt_eq (by omega), if_pos last]
          exact state.valid.close short inserted
        | cons prev before =>
          have last : low = prev.endTsn + 1 := start
          have after := state.valid.after (b := prev) (by simp)
          have ordered := state.valid.ordered (b := prev) (by simp)
          rw [if_neg (by rw [succInt_eq (by omega)]; omega)]
          refine state.valid.close short ?_
          simpa [received, beforeLast, lastPassed] using inserted
    · rw [if_neg inside]
      have onward := state.next short inside
      have result := ih onward onward.low onward.below
      rwa [List.reverse_cons, List.append_assoc, List.singleton_append] at result

theorem inTsnBlocks_iff (separated : Separated SctpRecvTsnBlock.startTsn pastTsn blocks) :
    inTsnBlocks tsn blocks = true ↔ tsn ∈ cover SctpRecvTsnBlock.startTsn pastTsn blocks := by
  induction blocks with
  | nil => simp [inTsnBlocks, cover]
  | cons curr rest ih =>
    have later := (List.pairwise_cons.mp separated.apart).1
    rw [inTsnBlocks, cover_cons]
    by_cases inside : curr.startTsn ≤ tsn ∧ tsn ≤ curr.endTsn
    · rw [if_pos inside]
      exact iff_of_true rfl (Or.inl ⟨inside.1, Nat.lt_succ_iff.mpr inside.2⟩)
    have outside : tsn ∉ Set.Ico curr.startTsn (pastTsn curr) := fun within =>
      inside ⟨within.1, Nat.lt_succ_iff.mp within.2⟩
    rw [if_neg inside, Set.mem_union, or_iff_right outside]
    by_cases passed : curr.endTsn > tsn
    · rw [if_pos passed]
      refine iff_of_false (by simp) ?_
      rintro ⟨b, member, first, _⟩
      have apart := later b member
      unfold pastTsn at apart
      omega
    · rw [if_neg passed]
      exact ih (separated.sublist (List.sublist_cons_self curr rest))

theorem Blocks.next (valid : Blocks cumAck blocks) :
    cumAck + 1 ∉ cover SctpRecvTsnBlock.startTsn pastTsn (received cumAck blocks) := by
  rintro ⟨b, member, first, last⟩
  rcases List.mem_cons.mp member with rfl | later
  · exact absurd last (lt_irrefl _)
  · have := valid.after later
    omega

theorem Blocks.le_cumAck (valid : Blocks cumAck blocks) {n : ℕ}
    (all : ∀ t ≤ n, t ∈ cover SctpRecvTsnBlock.startTsn pastTsn (received cumAck blocks)) : n ≤ cumAck := by
  by_contra less
  exact valid.next (all _ (not_le.mp less))

/-- The TSNs of `R` have arrived or were skipped, and the receiver knows of them. -/
structure Arrived (R : Set ℕ) (r : SctpReceiver) : Prop where
  blocks : Blocks r.cumAck r.recvTsnBlockList
  members : cover SctpRecvTsnBlock.startTsn pastTsn (received r.cumAck r.recvTsnBlockList) = insert 0 R
  highest : ∀ t ∈ R, r.cumAck < t → t ≤ r.highestRecvTsn

namespace Arrived

variable {R : Set ℕ}

theorem upTo (arrived : Arrived R r) {t : ℕ} (early : t ≤ r.cumAck) : t ∈ insert 0 R := by
  rw [← arrived.members]
  exact ⟨_, List.mem_cons_self, Nat.zero_le t, Nat.lt_succ_iff.mpr early⟩

theorem next (arrived : Arrived R r) : r.cumAck + 1 ∉ insert 0 R :=
  arrived.members ▸ arrived.blocks.next

theorem le_cumAck (arrived : Arrived R r) {n : ℕ} (all : ∀ t ≤ n, t ∈ insert 0 R) : n ≤ r.cumAck :=
  arrived.blocks.le_cumAck (arrived.members ▸ all)

theorem isDuplicateChunk (arrived : Arrived R r) : isDuplicateChunk tsn r = true ↔ tsn ∈ insert 0 R := by
  unfold SctpReceiver.isDuplicateChunk
  by_cases early : tsn ≤ r.cumAck
  · rw [if_pos early]
    exact iff_of_true rfl (arrived.upTo early)
  rw [if_neg early]
  by_cases high : ¬(r.cumAck < tsn ∧ tsn ≤ r.highestRecvTsn)
  · rw [if_pos high]
    refine iff_of_false (by simp) ?_
    rintro (rfl | member)
    · exact early (Nat.zero_le _)
    · exact high ⟨not_le.mp early, arrived.highest tsn member (not_le.mp early)⟩
  have later : inTsnBlocks tsn r.recvTsnBlockList = true ↔ _ :=
    inTsnBlocks_iff (arrived.blocks.separated.sublist (List.sublist_cons_self _ _))
  have outside : tsn ∉ Set.Ico (SctpRecvTsnBlock.mk 0 r.cumAck).startTsn (pastTsn ⟨0, r.cumAck⟩) := fun within =>
    early (Nat.lt_succ_iff.mp within.2)
  rw [if_neg high, ← arrived.members, received, cover_cons, Set.mem_union, or_iff_right outside, ← later]
  by_cases empty : r.recvTsnBlockList.length = 0
  · rw [if_pos empty, List.length_eq_zero_iff.mp empty, inTsnBlocks]
  · rw [if_neg empty]

/-- A TSN that is new, and that either is the highest by now or moves `uiCumAck`. -/
theorem updateRecvTsnBlocks (arrived : Arrived R r) (short : tsn < 2 ^ 32) (fresh : tsn ∉ insert 0 R)
    (high : tsn ≤ r.highestRecvTsn ∨ tsn ≤ r.cumAck + 1) :
    ∃ newCum blocks, updateRecvTsnBlocks tsn r = some { r with cumAck := newCum, recvTsnBlockList := blocks } ∧
      Arrived (insert tsn R) { r with cumAck := newCum, recvTsnBlockList := blocks } := by
  have low : r.cumAck < tsn := not_le.mp fun early => fresh (arrived.upTo early)
  have small := arrived.blocks.short _ List.mem_cons_self
  have start : Passed tsn r.cumAck [] (succInt r.cumAck) r.recvTsnBlockList :=
    ⟨arrived.blocks, fun covered => fresh (arrived.members ▸ covered), low, succInt_eq (by omega)⟩
  obtain ⟨⟨newCum, blocks⟩, done, m, absorbs⟩ := updateTsnBlocksFrom_inserted short start
  have valid := arrived.blocks.of_inserted short ⟨m, absorbs⟩
  have covers := absorbs.cover
  rw [List.reverse_nil, List.nil_append, arrived.members] at covers
  have members : cover SctpRecvTsnBlock.startTsn pastTsn (received newCum blocks) = insert 0 (insert tsn R) := by
    have single : Set.Ico tsn (tsn + 1) = {tsn} := Set.ext fun t => by
      simp only [Set.mem_Ico, Set.mem_singleton_iff]
      omega
    rw [covers, single, Set.union_singleton, Set.insert_comm]
  refine ⟨newCum, blocks, by rw [SctpReceiver.updateRecvTsnBlocks, done]; rfl, valid, members, ?_⟩
  have onward : r.cumAck ≤ newCum := valid.le_cumAck fun t early =>
    members ▸ Set.insert_subset_insert (Set.subset_insert tsn R) (arrived.upTo early)
  rintro t (rfl | member) late
  · refine high.resolve_right fun follows => absurd late (not_lt.mpr (valid.le_cumAck fun u early => ?_))
    rw [members]
    rcases Nat.lt_or_ge r.cumAck u with above | upTo
    · exact Or.inr (Or.inl (by omega))
    · exact Set.insert_subset_insert (Set.subset_insert t R) (arrived.upTo upTo)
  · exact arrived.highest t member (onward.trans_lt late)

end Arrived

end SctpReceiver

end Ns2
