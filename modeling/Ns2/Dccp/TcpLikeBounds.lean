import Ns2.Dccp.TcpLikeWindow

namespace Ns2

namespace Congestion

/-- The window is positive, and its fraction is below it. -/
structure Window (s : Congestion) : Prop where
  cwnd : 1 ≤ s.cwnd
  ssthresh : 1 ≤ s.ssthresh
  nonneg : 0 ≤ s.cwndFrac
  fraction : s.cwndFrac < s.cwnd
  /-- The type of the ack ratio. -/
  ratio : s.recvAckRatio < 2 ^ 16

/-- The constraints on the ack ratio. -/
structure RatioBounded (s : Congestion) : Prop where
  positive : 1 ≤ s.recvAckRatio
  half : (s.recvAckRatio : ℤ) ≤ (s.cwnd + 1) / 2
  least : 4 ≤ s.cwnd → 2 ≤ s.recvAckRatio

/-- No acknowledgement is exempt from the count of losses. -/
def Unskipped (s : Congestion) : Prop := s.ackWinStart = 0 ∧ s.skipAckLoss = false

variable {s : Congestion} (view : AgentView) {n : ℤ}

theorem toU16_lt (x : ℤ) : toU16 x < 2 ^ 16 := by
  unfold toU16
  omega

theorem toU16_of_lt (low : 0 ≤ n) (high : n < 2 ^ 16) : (toU16 n : ℤ) = n := by
  unfold toU16
  omega

theorem half_up (positive : 1 ≤ n) : (if n.tmod 2 > 0 then n.tdiv 2 + 1 else n.tdiv 2) = (n + 1) / 2 := by
  rw [Int.tdiv_eq_ediv_of_nonneg (by omega), Int.tmod_eq_emod_of_nonneg (by omega)]
  split_ifs <;> omega

/-- Only the ack ratio changes, and it meets its constraints. -/
theorem checkAckRatio_spec (positive : 1 ≤ s.cwnd) (ratio : s.recvAckRatio < 2 ^ 16) : ∃ r, s.checkAckRatio.2 = { s with recvAckRatio := r } ∧
    r < 2 ^ 16 ∧ RatioBounded { s with recvAckRatio := r } := by
  have half := half_up positive
  have least : 4 ≤ s.cwnd → 2 ≤ (s.cwnd + 1) / 2 := by omega
  have one : 1 ≤ (s.cwnd + 1) / 2 := by omega
  unfold checkAckRatio
  dsimp only
  rw [half]
  by_cases above : (s.recvAckRatio : ℤ) > (s.cwnd + 1) / 2
  · have lowered : (toU16 ((s.cwnd + 1) / 2) : ℤ) = (s.cwnd + 1) / 2 := toU16_of_lt (by omega) (by omega)
    simp only [above, decide_true, if_true]
    have large : ¬(s.cwnd ≥ 4 ∧ toU16 ((s.cwnd + 1) / 2) < 2) := by omega
    have nonzero : toU16 ((s.cwnd + 1) / 2) ≠ 0 := by omega
    rw [if_neg large, if_neg nonzero]
    exact ⟨_, rfl, toU16_lt _, ⟨by dsimp only; omega, by dsimp only; omega, fun four => by dsimp only at *; omega⟩⟩
  · simp only [above, decide_false, Bool.false_eq_true, if_false]
    split_ifs with small zero
    · exact ⟨2, rfl, by norm_num, ⟨by norm_num, by have := least small.1; dsimp only; omega, fun _ => le_rfl⟩⟩
    · exact ⟨1, rfl, by norm_num, ⟨le_rfl, by dsimp only; omega, fun four => absurd ⟨four, by omega⟩ small⟩⟩
    · exact ⟨s.recvAckRatio, rfl, ratio, ⟨by dsimp only; omega, by dsimp only; omega, fun four => by dsimp only at *; omega⟩⟩

/-- With the constraints the ack ratio is one, or has a divisor that is not zero. -/
theorem RatioBounded.divisor (bounded : RatioBounded s) (other : s.recvAckRatio ≠ 1) : (s.recvAckRatio : ℤ) * (s.recvAckRatio - 1) ≠ 0 := by
  have positive := bounded.positive
  refine mul_ne_zero ?_ ?_ <;> omega

theorem growWindow_spec {fuel : ℕ} {cwnd cwndFrac : ℤ} (positive : 1 ≤ cwnd) (nonneg : 0 ≤ cwndFrac) (enough : cwndFrac.toNat < fuel) :
    ∃ grown, growWindow fuel cwnd cwndFrac = some grown ∧ cwnd ≤ grown.1 ∧ 0 ≤ grown.2 ∧ grown.2 < grown.1 := by
  induction fuel generalizing cwnd cwndFrac with
  | zero => omega
  | succ fuel ih =>
    rw [growWindow]
    split_ifs with more
    · obtain ⟨grown, ended, larger, low, high⟩ := @ih (cwnd + 1) (cwndFrac - cwnd) (by omega) (by omega) (by omega)
      exact ⟨grown, ended, by omega, low, high⟩
    · exact ⟨_, rfl, le_rfl, nonneg, not_le.mp more⟩

/-- What a routine leaves alone that decides about losses of acknowledgements. -/
structure SameLosses (s t : Congestion) : Prop where
  ackWinStart : t.ackWinStart = s.ackWinStart
  skipAckLoss : t.skipAckLoss = s.skipAckLoss

theorem SameLosses.trans {t u : Congestion} (first : SameLosses s t) (second : SameLosses t u) : SameLosses s u :=
  ⟨second.ackWinStart.trans first.ackWinStart, second.skipAckLoss.trans first.skipAckLoss⟩

theorem SameLosses.unskipped {t : Congestion} (same : SameLosses s t) (unskipped : Unskipped s) : Unskipped t :=
  ⟨same.ackWinStart.trans unskipped.1, same.skipAckLoss.trans unskipped.2⟩

theorem RatioBounded.congr {t : Congestion} (bounded : RatioBounded s) (cwnd : t.cwnd = s.cwnd) (ratio : t.recvAckRatio = s.recvAckRatio) :
    RatioBounded t where
  positive := ratio ▸ bounded.positive
  half := by
    rw [ratio, cwnd]
    exact bounded.half
  least := by
    rw [ratio, cwnd]
    exact bounded.least

theorem Window.congr {t : Congestion} (window : Window s) (cwnd : t.cwnd = s.cwnd) (ssthresh : t.ssthresh = s.ssthresh)
    (cwndFrac : t.cwndFrac = s.cwndFrac) (ratio : t.recvAckRatio < 2 ^ 16) : Window t where
  cwnd := cwnd ▸ window.cwnd
  ssthresh := ssthresh ▸ window.ssthresh
  nonneg := cwndFrac ▸ window.nonneg
  fraction := by
    rw [cwnd, cwndFrac]
    exact window.fraction
  ratio := ratio

theorem askAck_eq (s : Congestion) : ∃ sendAck ackNum, askAck view s = { s with sendAck := sendAck, ackNum := ackNum } := by
  unfold askAck
  split_ifs
  · exact ⟨_, _, rfl⟩
  · exact ⟨s.sendAck, s.ackNum, rfl⟩

/-- Slow start raises the window to the threshold at most, and leaves a number of packets. -/
theorem slowStart_spec (window : Window s) (nonneg : 0 ≤ n) : 0 ≤ (slowStart view n s).1 ∧ Window (slowStart view n s).2 ∧
    s.cwnd ≤ (slowStart view n s).2.cwnd ∧ (slowStart view n s).2.recvAckRatio = s.recvAckRatio ∧ SameLosses s (slowStart view n s).2 := by
  obtain ⟨cwnd, ssthresh, low, high, ratio⟩ := window
  unfold slowStart
  by_cases slow : s.cwnd < s.ssthresh
  · rw [if_pos slow]
    generalize moved : (if n > s.ackRatioRemote then (n - s.ackRatioRemote, { s with cwnd := s.cwnd + s.ackRatioRemote })
      else (0, { s with cwnd := s.cwnd + n })) = pair
    obtain ⟨c, rest, larger, left, rfl⟩ : ∃ c rest, s.cwnd ≤ c ∧ 0 ≤ rest ∧ pair = (rest, { s with cwnd := c }) := by
      split_ifs at moved with many
      · exact ⟨_, _, by omega, by omega, moved.symm⟩
      · exact ⟨_, _, by omega, le_rfl, moved.symm⟩
    dsimp only
    by_cases still : c < s.ssthresh
    · rw [if_pos still]
      dsimp only
      rw [if_neg still.ne]
      exact ⟨le_rfl, ⟨by dsimp only; omega, ssthresh, low, by dsimp only; omega, ratio⟩, larger, rfl, rfl, rfl⟩
    · rw [if_neg still]
      dsimp only
      rw [if_pos rfl]
      obtain ⟨sendAck, ackNum, same⟩ := askAck_eq view { s with cwnd := s.ssthresh, cwndFrac := 0 }
      rw [same]
      exact ⟨by omega, ⟨ssthresh, ssthresh, le_rfl, by dsimp only; omega, ratio⟩, slow.le, rfl, rfl, rfl⟩
  · rw [if_neg slow]
    exact ⟨nonneg, ⟨cwnd, ssthresh, low, high, ratio⟩, le_rfl, rfl, rfl, rfl⟩

theorem avoidCongestion_spec (oldCwnd : ℤ) (window : Window s) (nonneg : 0 ≤ n) : ∃ t, avoidCongestion view oldCwnd n s = some t ∧ Window t ∧
    s.cwnd ≤ t.cwnd ∧ t.recvAckRatio = s.recvAckRatio ∧ SameLosses s t := by
  unfold avoidCongestion
  split_ifs with avoids
  · obtain ⟨grown, ended, larger, low, high⟩ := growWindow_spec window.cwnd (add_nonneg window.nonneg nonneg) (Nat.lt_succ_self _)
    have positive := window.cwnd
    have grows : Window { s with cwnd := grown.1, cwndFrac := grown.2 } := ⟨by dsimp only; omega, window.ssthresh, low, high, window.ratio⟩
    obtain ⟨sendAck, ackNum, asked⟩ := askAck_eq view { s with cwnd := grown.1, cwndFrac := grown.2 }
    rw [ended, Option.map_some]
    dsimp only
    split_ifs
    · rw [asked]
      exact ⟨_, rfl, grows.congr rfl rfl rfl grows.ratio, larger, rfl, rfl, rfl⟩
    · exact ⟨_, rfl, grows, larger, rfl, rfl, rfl⟩
  · exact ⟨s, rfl, window, le_rfl, rfl, rfl, rfl⟩

/-- `updateCwnd` comes to its end. The window does not shrink, and when it grows the ack ratio is checked. -/
theorem updateCwnd_spec (window : Window s) (nonneg : 0 ≤ n) : ∃ t, updateCwnd view n s = some t ∧ Window t ∧ s.cwnd ≤ t.cwnd ∧
    (s.cwnd < t.cwnd → RatioBounded t) ∧ (RatioBounded s → RatioBounded t) ∧ SameLosses s t := by
  obtain ⟨left, started, larger, ratio, same⟩ := slowStart_spec view window nonneg
  obtain ⟨u, avoided, windowU, largerU, ratioU, sameU⟩ := avoidCongestion_spec view s.cwnd started left
  unfold updateCwnd
  dsimp only
  rw [avoided, Option.map_some]
  split_ifs with grew
  · obtain ⟨r, checked, small, bounded⟩ := checkAckRatio_spec windowU.cwnd windowU.ratio
    rw [checked]
    exact ⟨_, rfl, windowU.congr rfl rfl rfl small, grew.le, fun _ => bounded, fun _ => bounded,
      (same.trans sameU).ackWinStart, (same.trans sameU).skipAckLoss⟩
  · have equal : u.cwnd = s.cwnd := by omega
    exact ⟨u, rfl, windowU, by omega, fun more => absurd more grew, fun bounded => bounded.congr equal (ratioU.trans ratio), same.trans sameU⟩

theorem numIncCwnd_nonneg (counts : DataCounts) : 0 ≤ numIncCwnd counts := by
  have inside := counts.okMark_le true
  have outside := counts.okMark_le false
  unfold numIncCwnd
  omega

/-- A loss of data halves the window, which stays positive. -/
theorem lostOrMarkedData_window (window : Window s) : Window (lostOrMarkedData view s) := by
  have positive := window.cwnd
  have halved : 1 ≤ if s.cwnd ≥ 2 then s.cwnd.tdiv 2 else s.cwnd := by
    rw [Int.tdiv_eq_ediv_of_nonneg (by omega)]
    split_ifs <;> omega
  exact ⟨halved, halved, le_rfl, lt_of_lt_of_le zero_lt_one halved, window.ratio⟩

theorem lostOrMarkedAck_spec (window : Window s) : Window (lostOrMarkedAck view s) ∧ RatioBounded (lostOrMarkedAck view s) := by
  unfold lostOrMarkedAck
  dsimp only
  obtain ⟨r, checked, small, bounded⟩ := checkAckRatio_spec
    (s := { s with ackWinStart := view.seqNum, numWinAcked := 0, numAckInWin := 0, skipAckLoss := true, recvAckRatio := toU16 (s.recvAckRatio * 2) })
    window.cwnd (toU16_lt (s.recvAckRatio * 2))
  rw [checked]
  exact ⟨window.congr rfl rfl rfl small, bounded⟩

/-- The ack ratio is lowered by one at most, and every divisor is that of the ratio. -/
theorem updateAckRatio_spec (window : Window s) : Window (updateAckRatio n s).2 ∧ SameLosses s (updateAckRatio n s).2 ∧
    (RatioBounded s → RatioBounded (updateAckRatio n s).2 ∧ ∀ d ∈ (updateAckRatio n s).1, d ≠ 0) := by
  unfold updateAckRatio
  by_cases one : s.recvAckRatio = 1
  · rw [if_pos one]
    exact ⟨window.congr rfl rfl rfl window.ratio, ⟨rfl, rfl⟩, fun bounded => ⟨bounded.congr rfl rfl, by simp⟩⟩
  rw [if_neg one]
  dsimp only
  have divisor : ∀ bounded : RatioBounded s, ∀ d ∈ [(s.recvAckRatio : ℤ) * (s.recvAckRatio - 1)], d ≠ 0 := fun bounded d mem =>
    List.mem_singleton.mp mem ▸ bounded.divisor one
  split_ifs with whole lower
  · obtain ⟨r, checked, small, bounded⟩ := checkAckRatio_spec
      (s := { s with numWinAcked := s.numWinAcked + 1, numAckInWin := s.numAckInWin + n - s.cwnd, recvAckRatio := toU16 (s.recvAckRatio - 1) })
      window.cwnd (toU16_lt _)
    rw [checked]
    exact ⟨window.congr rfl rfl rfl small, ⟨rfl, rfl⟩, fun before => ⟨bounded.congr rfl rfl, divisor before⟩⟩
  · exact ⟨window.congr rfl rfl rfl window.ratio, ⟨rfl, rfl⟩, fun bounded => ⟨bounded.congr rfl rfl, divisor bounded⟩⟩
  · exact ⟨window.congr rfl rfl rfl window.ratio, ⟨rfl, rfl⟩, fun bounded => ⟨bounded.congr rfl rfl, by simp⟩⟩

theorem changeRemoteAckRatio_eq (s : Congestion) : ∃ r, changeRemoteAckRatio view s = { s with ackRatioRemote := r } := by
  unfold changeRemoteAckRatio
  split_ifs
  · exact ⟨_, rfl⟩
  · exact ⟨s.ackRatioRemote, rfl⟩

theorem timeoutTO_spec {cwndTimeout : ℤ} (positive : 1 ≤ cwndTimeout) (window : Window s) :
    Window (timeoutTO cwndTimeout view s) ∧ RatioBounded (timeoutTO cwndTimeout view s) := by
  have large := window.cwnd
  have halved : 1 ≤ if s.cwnd.tdiv 2 = 0 then 1 else s.cwnd.tdiv 2 := by
    rw [Int.tdiv_eq_ediv_of_nonneg (by omega)]
    split_ifs <;> omega
  unfold timeoutTO
  dsimp only
  obtain ⟨r, checked, small, bounded⟩ := checkAckRatio_spec (s := { s with
    ssthresh := if s.cwnd.tdiv 2 = 0 then 1 else s.cwnd.tdiv 2
    cwnd := cwndTimeout
    seqPipeStart := view.seqNum
    seqWinStart := view.seqNum
    cwndFrac := 0
    numAckInWin := 0
    numWinAcked := 0
    ackWinStart := view.seqNum
    recvAckRatio := 1 }) positive (by norm_num)
  rw [checked]
  obtain ⟨remote, changed⟩ := changeRemoteAckRatio_eq view { s with
    ssthresh := if s.cwnd.tdiv 2 = 0 then 1 else s.cwnd.tdiv 2
    cwnd := cwndTimeout
    seqPipeStart := view.seqNum
    seqWinStart := view.seqNum
    cwndFrac := 0
    numAckInWin := 0
    numWinAcked := 0
    ackWinStart := view.seqNum
    recvAckRatio := r }
  rw [changed]
  exact ⟨⟨positive, halved, le_rfl, lt_of_lt_of_le zero_lt_one positive, small⟩, bounded.congr rfl rfl⟩

/-- A loss or a larger window, from which on the ack ratio meets its constraints. -/
def Adjusts (s : Congestion) : Input → Prop
  | .data _ lostAck => lostAck = true
  | .ack view ackNum lostAck counts => lostAck = true ∨ ∃ reported, counts = some reported ∧ ackNum ≥ s.highAckRecv ∧
      (0 < reported.lost true ∨ 0 < reported.marked true ∨ ∃ t, s.cwnd < t.cwnd ∧
        updateCwnd view (numIncCwnd reported) { s with skipAckLoss := ackNum < s.ackWinStart, highAckRecv := ackNum } = some t)
  | .timeout _ => True
  | .feature _ => False

/-- Before the first loss no acknowledgement is exempt, and after it the ack ratio is constrained. -/
def Ready (s : Congestion) : Prop := Unskipped s ∨ RatioBounded s

theorem askAck_spec (window : Window s) : Window (askAck view s) ∧ (RatioBounded s → RatioBounded (askAck view s)) := by
  obtain ⟨sendAck, ackNum, asked⟩ := askAck_eq view s
  rw [asked]
  exact ⟨window.congr rfl rfl rfl window.ratio, fun bounded => bounded.congr rfl rfl⟩

/-- Losses of data leave a checked ack ratio. -/
theorem handleLosses_spec (counts : DataCounts) (window : Window s) : Window (handleLosses view counts s).2 ∧
    (0 < counts.lost true ∨ 0 < counts.marked true → RatioBounded (handleLosses view counts s).2) ∧
    (RatioBounded s → RatioBounded (handleLosses view counts s).2) ∧ (Ready s → Ready (handleLosses view counts s).2) := by
  unfold handleLosses
  by_cases loss : counts.lost true > 0 ∨ counts.marked true > 0
  · rw [if_pos loss]
    dsimp only
    have lost := lostOrMarkedData_window view window
    obtain ⟨r, same, small, bounded⟩ := checkAckRatio_spec (s := { lostOrMarkedData view s with numAckInWin := 0 }) lost.cwnd lost.ratio
    rw [same]
    split_ifs
    · have asked := askAck_spec view (s := { lostOrMarkedData view s with
        numAckInWin := 0, recvAckRatio := r, numWinAcked := 0, ackWinStart := view.seqNum }) (lost.congr rfl rfl rfl small)
      have ratio := asked.2 (bounded.congr rfl rfl)
      exact ⟨asked.1, fun _ => ratio, fun _ => ratio, fun _ => .inr ratio⟩
    · have asked := askAck_spec view (s := { lostOrMarkedData view s with numAckInWin := 0, recvAckRatio := r })
        (lost.congr rfl rfl rfl small)
      have ratio := asked.2 bounded
      exact ⟨asked.1, fun _ => ratio, fun _ => ratio, fun _ => .inr ratio⟩
  · rw [if_neg loss]
    exact ⟨window, fun lost => absurd lost loss, id, id⟩

theorem acknowledge_spec (lostAck : Bool) (counts : DataCounts) (window : Window s) (ready : Ready s) :
    ∃ done, acknowledge view lostAck counts s = some done ∧ Window done.2 ∧ Ready done.2 ∧
      (RatioBounded s ∨ lostAck = true ∨ 0 < counts.lost true ∨ 0 < counts.marked true ∨
          (∃ t, s.cwnd < t.cwnd ∧ updateCwnd view (numIncCwnd counts) s = some t) →
        RatioBounded done.2 ∧ ∀ d ∈ done.1, d ≠ 0) := by
  obtain ⟨t, updated, windowT, larger, grown, kept, same⟩ := updateCwnd_spec view window (numIncCwnd_nonneg counts)
  obtain ⟨windowU, lossU, keptU, readyU⟩ := handleLosses_spec view counts windowT
  have ready := readyU (ready.imp same.unskipped kept)
  unfold acknowledge
  rw [updated, Option.map_some]
  dsimp only
  split_ifs with acked
  · obtain ⟨windowL, boundedL⟩ := lostOrMarkedAck_spec view windowU
    exact ⟨_, rfl, windowL, .inr boundedL, fun _ => ⟨boundedL, by simp⟩⟩
  · obtain ⟨windowR, sameR, ratio⟩ := updateAckRatio_spec (n := (handleLosses view counts t).1) windowU
    refine ⟨_, rfl, windowR, ready.imp sameR.unskipped fun bounded => (ratio bounded).1, fun adjusts => ratio ?_⟩
    rcases adjusts with bounded | lost | gone | marked | ⟨u, more, grew⟩
    · exact keptU (kept bounded)
    · exact ready.resolve_left fun unskipped => acked ⟨by rw [unskipped.2]; decide, lost⟩
    · exact lossU (.inl gone)
    · exact lossU (.inr marked)
    · cases Option.some.inj grew
      exact keptU (grown more)

theorem Ready.received (ready : Ready s) (ackNum : ℕ) : Ready { s with skipAckLoss := ackNum < s.ackWinStart } := by
  rcases ready with ⟨zero, off⟩ | bounded
  · exact .inl ⟨zero, by dsimp only; rw [zero]; simp⟩
  · exact .inr (bounded.congr rfl rfl)

theorem ackLoss_spec (lostAck : Bool) (window : Window s) (ready : Ready s) :
    Window (if ¬s.skipAckLoss ∧ lostAck then lostOrMarkedAck view s else s) ∧
      Ready (if ¬s.skipAckLoss ∧ lostAck then lostOrMarkedAck view s else s) ∧
      (RatioBounded s ∨ lostAck = true → RatioBounded (if ¬s.skipAckLoss ∧ lostAck then lostOrMarkedAck view s else s)) := by
  split_ifs with acked
  · obtain ⟨windowL, boundedL⟩ := lostOrMarkedAck_spec view window
    exact ⟨windowL, .inr boundedL, fun _ => boundedL⟩
  · refine ⟨window, ready, fun either => either.elim id fun lost => ?_⟩
    exact ready.resolve_left fun unskipped => acked ⟨by rw [unskipped.2]; decide, lost⟩

theorem recvAck_spec (ackNum : ℕ) (lostAck : Bool) (counts : Option DataCounts) (window : Window s) (ready : Ready s) :
    ∃ done, recvAck view ackNum lostAck counts s = some done ∧ Window done.2 ∧ Ready done.2 ∧
      (RatioBounded s ∨ Adjusts s (.ack view ackNum lostAck counts) → RatioBounded done.2 ∧ ∀ d ∈ done.1, d ≠ 0) := by
  have windowS : Window { s with skipAckLoss := ackNum < s.ackWinStart } := window.congr rfl rfl rfl window.ratio
  have readyS := ready.received ackNum
  unfold recvAck
  cases counts with
  | none =>
    dsimp only
    split_ifs with lost
    · obtain ⟨windowL, boundedL⟩ := lostOrMarkedAck_spec view windowS
      exact ⟨_, rfl, windowL, .inr boundedL, fun _ => ⟨boundedL, by simp⟩⟩
    · refine ⟨_, rfl, windowS, readyS, fun either => ⟨?_, by simp⟩⟩
      rcases either with bounded | other | ⟨_, other, _⟩
      · exact bounded.congr rfl rfl
      · exact absurd other lost
      · cases other
  | some reported =>
    dsimp only
    by_cases new : ackNum ≥ s.highAckRecv
    · rw [if_pos new]
      obtain ⟨done, finished, windowD, readyD, settled⟩ := acknowledge_spec view lostAck reported
        (s := { s with skipAckLoss := ackNum < s.ackWinStart, highAckRecv := ackNum }) (window.congr rfl rfl rfl window.ratio)
        (readyS.imp id fun bounded => bounded.congr rfl rfl)
      refine ⟨done, finished, windowD, readyD, fun either => settled ?_⟩
      rcases either with bounded | lost | ⟨_, same, _, reasons⟩
      · exact .inl (bounded.congr rfl rfl)
      · exact .inr (.inl lost)
      · cases same
        exact .inr (.inr reasons)
    · rw [if_neg new]
      obtain ⟨windowL, readyL, settled⟩ := ackLoss_spec view lostAck windowS readyS
      refine ⟨_, rfl, windowL, readyL, fun either => ⟨settled ?_, by simp⟩⟩
      rcases either with bounded | lost | ⟨_, _, later, _⟩
      · exact .inl (bounded.congr rfl rfl)
      · exact .inr lost
      · exact absurd later new

/-- A step comes to its end and keeps what is known; from an adjustment on the ack ratio meets its constraints. -/
theorem step_spec {cwndTimeout : ℤ} (positive : 1 ≤ cwndTimeout) (i : Input) (window : Window s) (ready : Ready s) :
    ∃ next out, step cwndTimeout s i = some (next, out) ∧ Window next ∧ Ready next ∧
      (RatioBounded s ∨ Adjusts s i → RatioBounded next ∧ ∀ d ∈ out, d ≠ 0) := by
  have changed : ∀ view (t : Congestion), Window t → Ready t → Window (changeRemoteAckRatio view t) ∧ Ready (changeRemoteAckRatio view t) ∧
      (RatioBounded t → RatioBounded (changeRemoteAckRatio view t)) := by
    intro view t window ready
    obtain ⟨r, same⟩ := changeRemoteAckRatio_eq view t
    rw [same]
    exact ⟨window.congr rfl rfl rfl window.ratio, ready.imp id fun bounded => bounded.congr rfl rfl, fun bounded => bounded.congr rfl rfl⟩
  cases i with
  | data view lostAck =>
    obtain ⟨windowL, readyL, settled⟩ := ackLoss_spec view lostAck window ready
    obtain ⟨windowC, readyC, kept⟩ := changed view _ windowL readyL
    exact ⟨_, _, rfl, windowC, readyC, fun either => ⟨kept (settled either), by simp⟩⟩
  | ack view ackNum lostAck counts =>
    obtain ⟨done, finished, windowD, readyD, settled⟩ := recvAck_spec view ackNum lostAck counts window ready
    obtain ⟨windowC, readyC, kept⟩ := changed view _ windowD readyD
    exact ⟨_, _, by rw [step, finished]; rfl, windowC, readyC, fun either => ⟨kept (settled either).1, (settled either).2⟩⟩
  | timeout view =>
    obtain ⟨windowT, boundedT⟩ := timeoutTO_spec view positive window
    exact ⟨_, _, rfl, windowT, .inr boundedT, fun _ => ⟨boundedT, by simp⟩⟩
  | feature ratio =>
    refine ⟨_, _, rfl, window.congr rfl rfl rfl window.ratio, ready.imp id fun bounded => bounded.congr rfl rfl, fun either => ⟨?_, by simp⟩⟩
    exact (either.resolve_right id).congr rfl rfl

theorem make_window {initialCwnd initialSsthresh : ℤ} (cwnd : 1 ≤ initialCwnd) (ssthresh : 1 ≤ initialSsthresh) (ackRatioRemote : ℕ) :
    Window (make initialCwnd initialSsthresh ackRatioRemote) :=
  ⟨cwnd, ssthresh, le_rfl, lt_of_lt_of_le zero_lt_one cwnd, toU16_lt ackRatioRemote⟩

/-- Runs come to their end with a positive window, and once the ack ratio is constrained it stays so. -/
theorem run_spec {cwndTimeout : ℤ} (positive : 1 ≤ cwndTimeout) (calls : List Input) (window : Window s) (ready : Ready s) :
    ∃ last outs, (machine cwndTimeout).run s calls = some (last, outs) ∧ Window last ∧ Ready last ∧
      (RatioBounded s → RatioBounded last ∧ ∀ divisors ∈ outs, ∀ d ∈ divisors, d ≠ 0) := by
  induction calls generalizing s with
  | nil => exact ⟨s, [], rfl, window, ready, fun bounded => ⟨bounded, by simp⟩⟩
  | cons i calls ih =>
    obtain ⟨next, out, taken, windowN, readyN, settled⟩ := step_spec positive i window ready
    obtain ⟨last, outs, run, windowL, readyL, kept⟩ := ih windowN readyN
    refine ⟨last, out :: outs, by rw [Machine.run_cons taken, run]; rfl, windowL, readyL, fun bounded => ?_⟩
    obtain ⟨boundedN, first⟩ := settled (.inl bounded)
    obtain ⟨boundedL, rest⟩ := kept boundedN
    exact ⟨boundedL, List.forall_mem_cons.mpr ⟨first, rest⟩⟩

/-- In every run the loop of `updateCwnd` ends, window, threshold and fraction keep their bounds, and from the first loss or larger
window on the ack ratio keeps its own, so that no division is by zero. -/
theorem run_bounds {cwndTimeout initialCwnd initialSsthresh : ℤ} (timeout : 1 ≤ cwndTimeout) (cwnd : 1 ≤ initialCwnd)
    (ssthresh : 1 ≤ initialSsthresh) (ackRatioRemote : ℕ) (before : List Input) :
    ∃ mid outs, (machine cwndTimeout).run (make initialCwnd initialSsthresh ackRatioRemote) before = some (mid, outs) ∧ Window mid ∧
      (∀ view n, 0 ≤ n → ∃ t, updateCwnd view n mid = some t ∧ 0 ≤ t.cwndFrac ∧ t.cwndFrac < t.cwnd) ∧
      ∀ i after, Adjusts mid i → ∃ last outs', (machine cwndTimeout).run mid (i :: after) = some (last, outs') ∧
        RatioBounded last ∧ ∀ divisors ∈ outs', ∀ d ∈ divisors, d ≠ 0 := by
  obtain ⟨mid, outs, run, window, ready, _⟩ :=
    run_spec timeout before (make_window cwnd ssthresh ackRatioRemote) (.inl ⟨rfl, rfl⟩)
  refine ⟨mid, outs, run, window, fun view n nonneg => ?_, fun i after adjusts => ?_⟩
  · obtain ⟨t, updated, windowT, _⟩ := updateCwnd_spec view window nonneg
    exact ⟨t, updated, windowT.nonneg, windowT.fraction⟩
  · obtain ⟨next, out, taken, windowN, readyN, settled⟩ := step_spec timeout i window ready
    obtain ⟨boundedN, first⟩ := settled (.inr adjusts)
    obtain ⟨last, outs', rest, _, _, kept⟩ := run_spec timeout after windowN readyN
    obtain ⟨boundedL, later⟩ := kept boundedN
    exact ⟨last, out :: outs', by rw [Machine.run_cons taken, rest]; rfl, boundedL, List.forall_mem_cons.mpr ⟨first, later⟩⟩

theorem run_bounds_sample : ∃ mid outs, (machine 1).run (make 3 65535 2) [.data ⟨10, 0, false, true⟩ true] = some (mid, outs) ∧ Window mid ∧
    (∀ view n, 0 ≤ n → ∃ t, updateCwnd view n mid = some t ∧ 0 ≤ t.cwndFrac ∧ t.cwndFrac < t.cwnd) ∧
    ∀ i after, Adjusts mid i → ∃ last outs', (machine 1).run mid (i :: after) = some (last, outs') ∧
      RatioBounded last ∧ ∀ divisors ∈ outs', ∀ d ∈ divisors, d ≠ 0 :=
  run_bounds le_rfl (by decide) (by decide) 2 [.data ⟨10, 0, false, true⟩ true]

end Congestion

end Ns2
