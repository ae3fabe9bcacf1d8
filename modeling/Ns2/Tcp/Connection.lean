import Mathlib.Data.Rat.Floor
import Ns2.Tcp.Acker

namespace Ns2

/-- The options of a `TcpAgent` that its sequence numbers and its window depend on. -/
structure TcpConfig where
  wnd : ℚ
  wndInit : ℚ
  maxcwnd : ℕ
  increaseNum : ℚ
  maxburst : ℕ
  numdupacks : ℤ
  size : ℕ
  headersize : ℕ
  tcpipBaseHdrSize : ℕ
  useHeaders : Bool
  syn : Bool
  delayGrowth : Bool
  singledup : Bool
  noFastRetrans : Bool
  bugFix : Bool
  bugfixSS : Bool
  slowStartRestart : Bool
  restartBugfix : Bool
  timerfix : Bool
  aggressiveMaxburst : Bool

structure TcpAgent where
  config : TcpConfig
  tSeqno : ℤ
  maxseq : ℤ
  lastAck : ℤ
  highestAck : ℤ
  curseq : ℤ
  recover : ℤ
  dupacks : ℤ
  cwnd : ℚ
  ssthresh : ℤ
  wndInit : ℚ
  /-- The retransmit timer is pending. -/
  rtxPending : Bool

/-- A data packet. -/
structure TcpPacket where
  seqno : ℤ
  size : ℕ
deriving DecidableEq

def TcpPacket.arrival (p : TcpPacket) : Arrival := ⟨p.seqno.toNat, p.size⟩

/-- The size that `output` gives to a packet. -/
def TcpConfig.packetSize (c : TcpConfig) (seqno : ℤ) : ℕ :=
  if seqno = 0 then if c.syn then c.tcpipBaseHdrSize else c.size else if c.useHeaders then c.size + c.headersize else c.size

/-- A window of one packet at least, and no empty packets. -/
structure TcpConfig.Valid (c : TcpConfig) : Prop where
  wnd : 1 ≤ c.wnd
  wndInit : 1 ≤ c.wndInit
  increaseNum : 0 ≤ c.increaseNum
  sized : ∀ seqno, 0 < c.packetSize seqno

namespace TcpAgent

def TCP_MAXSEQ : ℤ := 1073741824

/-- `reset`. -/
def init (c : TcpConfig) : TcpAgent :=
  ⟨c, 0, -1, -1, -1, 0, 0, 0, if c.syn ∧ c.delayGrowth then 1 else c.wndInit, ⌊c.wnd⌋, c.wndInit, false⟩

def window (s : TcpAgent) : ℤ := if s.cwnd < s.config.wnd then ⌊s.cwnd⌋ else ⌊s.config.wnd⌋

/-- The first packet of a connection with a SYN adds one to the data. -/
def output (s : TcpAgent) (seqno : ℤ) : TcpAgent × TcpPacket :=
  ({ s with
      curseq := if seqno = 0 ∧ s.config.syn ∧ s.maxseq = -1 then s.curseq + 1 else s.curseq
      maxseq := max s.maxseq seqno
      rtxPending := true },
    ⟨seqno, s.config.packetSize seqno⟩)

/-- `output(t_seqno_)` with the step of `t_seqno_` behind it. -/
def outputNext (s : TcpAgent) : TcpAgent × TcpPacket :=
  let (t, p) := s.output s.tSeqno
  ({ t with tSeqno := s.tSeqno + 1 }, p)

/-- The loop of `send_much`, for some packets at most. -/
def sendLoop : ℕ → TcpAgent → TcpAgent × List TcpPacket
  | 0, s => (s, [])
  | n + 1, s =>
    if s.tSeqno ≤ s.highestAck + s.window ∧ s.tSeqno < s.curseq then
      let (t, p) := s.outputNext
      let (u, ps) := sendLoop n t
      (u, p :: ps)
    else (s, [])

def sendMuch (s : TcpAgent) : TcpAgent × List TcpPacket :=
  let room := (s.highestAck + s.window + 1 - s.tSeqno).toNat
  s.sendLoop (if s.config.maxburst = 0 then room else min s.config.maxburst room)

def sendmsg (s : TcpAgent) (nbytes : ℤ) : TcpAgent × List TcpPacket :=
  let curseq :=
    if nbytes = -1 ∧ s.curseq ≤ TCP_MAXSEQ then TCP_MAXSEQ
    else s.curseq + (nbytes.tdiv s.config.size + if nbytes.tmod s.config.size = 0 then 0 else 1)
  { s with curseq }.sendMuch

def advanceby (s : TcpAgent) (delta : ℤ) : TcpAgent × List TcpPacket := { s with curseq := s.curseq + delta }.sendMuch

/-- The slow start and the linear increase of `opencwnd`. -/
def increased (s : TcpAgent) : ℚ := if s.cwnd < s.ssthresh then s.cwnd + 1 else s.cwnd + s.config.increaseNum / s.cwnd

def opencwnd (s : TcpAgent) : TcpAgent :=
  { s with cwnd := if s.config.maxcwnd ≠ 0 ∧ ⌊s.increased⌋ > s.config.maxcwnd then s.config.maxcwnd else s.increased }

/-- `slowdown` to a window of one packet. -/
def slowdown (s : TcpAgent) (closeSsthreshHalf : Bool) : TcpAgent :=
  { s with cwnd := 1, ssthresh := max 2 (if closeSsthreshHalf then s.window / 2 else s.ssthresh) }

/-- `reset_rtx_timer`, not mild. -/
def resetRtxTimer (s : TcpAgent) : TcpAgent := { s with tSeqno := s.highestAck + 1, rtxPending := true }

/-- Whether the timer is pending after `newtimer`. -/
def newtimer (s : TcpAgent) (seqno : ℤ) : Bool := s.tSeqno > seqno ∨ seqno < s.maxseq ∨ s.cwnd < 1

def newack (s : TcpAgent) (seqno : ℤ) : TcpAgent :=
  let t := { s with dupacks := 0, lastAck := seqno, highestAck := seqno, tSeqno := max s.tSeqno (seqno + 1) }
  { t with rtxPending := if s.config.timerfix then t.newtimer seqno else s.newtimer seqno }

def recvNewack (s : TcpAgent) (seqno : ℤ) : TcpAgent :=
  let s := (s.newack seqno).opencwnd
  if s.lastAck = 0 ∧ s.config.delayGrowth then { s with cwnd := s.wndInit } else s

def dupackAction (s : TcpAgent) : TcpAgent :=
  if s.highestAck > s.recover ∨ ¬s.config.bugFix ∨ s.config.bugfixSS ∧ s.highestAck = 0 then
    ({ s with recover := s.maxseq }.slowdown true).resetRtxTimer
  else s

/-- On a first or a second duplicate acknowledgement. -/
def sendOne (s : TcpAgent) : TcpAgent × List TcpPacket :=
  if (s.tSeqno : ℚ) ≤ s.highestAck + s.config.wnd ∧ s.tSeqno < s.curseq ∧ (s.tSeqno : ℚ) ≤ s.highestAck + s.cwnd + s.dupacks then
    let (t, p) := s.outputNext
    (t, [p])
  else (s, [])

/-- The part of `recv` before the last `send_much`. -/
def recvAck (s : TcpAgent) (seqno : ℤ) : TcpAgent × List TcpPacket :=
  if seqno > s.lastAck then (s.recvNewack seqno, [])
  else if seqno = s.lastAck then
    let s := { s with dupacks := s.dupacks + 1 }
    if s.dupacks = s.config.numdupacks ∧ ¬s.config.noFastRetrans then (s.dupackAction, [])
    else if s.dupacks < s.config.numdupacks ∧ s.config.singledup then s.sendOne
    else (s, [])
  else (s, [])

def recv (s : TcpAgent) (seqno : ℤ) : TcpAgent × List TcpPacket :=
  let (t, ps) := s.recvAck seqno
  if seqno ≥ t.lastAck ∨ t.config.aggressiveMaxburst then
    let (u, qs) := t.sendMuch
    (u, ps ++ qs)
  else (t, ps)

/-- The part of `timeout` before the timer is reset. When the first packet has been lost, larger initial windows are not used. -/
def closeWindow (s : TcpAgent) : TcpAgent :=
  let s := { s with cwnd := max s.cwnd 1 }
  if s.highestAck = s.maxseq ∧ ¬s.config.slowStartRestart then s
  else
    { s with
      recover := s.maxseq
      wndInit := if s.highestAck = -1 ∧ s.wndInit > 1 ∧ s.config.bugfixSS then 1 else s.wndInit }.slowdown
        (¬(s.highestAck = s.maxseq ∧ s.config.restartBugfix))

/-- The end of the retransmit timer. -/
def timeout (s : TcpAgent) : TcpAgent × List TcpPacket := s.closeWindow.resetRtxTimer.sendMuch

/-- What the sequence numbers of an agent keep to, with a window of one packet at least. -/
structure Orderly (s : TcpAgent) : Prop where
  same : s.lastAck = s.highestAck
  begun : -1 ≤ s.highestAck
  ahead : s.highestAck < s.tSeqno
  contiguous : s.tSeqno ≤ s.maxseq + 1
  cwnd : 1 ≤ s.cwnd
  wndInit : 1 ≤ s.wndInit
  timed : s.highestAck < s.maxseq → s.rtxPending

/-- Some packets are sent from `t_seqno_` on, each in the window and of the data. -/
inductive Sends : TcpAgent → List TcpPacket → TcpAgent → Prop
  | done (s : TcpAgent) : Sends s [] s
  | next {s t : TcpAgent} {ps : List TcpPacket} : s.tSeqno < s.curseq → (s.tSeqno : ℚ) ≤ s.highestAck + s.config.wnd →
      Sends s.outputNext.1 ps t → Sends s (s.outputNext.2 :: ps) t

variable {s t u : TcpAgent} {ps qs : List TcpPacket}

theorem Sends.append (first : Sends s ps t) (second : Sends t qs u) : Sends s (ps ++ qs) u := by
  induction first with
  | done => exact second
  | next data window _ ih => exact .next data window (ih second)

/-- What is known when they have been sent. -/
structure Sent (s : TcpAgent) (ps : List TcpPacket) (t : TcpAgent) : Prop where
  config : t.config = s.config
  highestAck : t.highestAck = s.highestAck
  maxseq : s.maxseq ≤ t.maxseq
  curseq : s.curseq ≤ t.curseq
  orderly : s.Orderly → t.Orderly
  each : ∀ p ∈ ps, s.tSeqno ≤ p.seqno ∧ p.seqno ≤ t.maxseq ∧ p.seqno < t.curseq ∧ (p.seqno : ℚ) ≤ s.highestAck + s.config.wnd ∧
    p.size = s.config.packetSize p.seqno
  timed : s.rtxPending ∨ ps ≠ [] → t.rtxPending

theorem outputNext_curseq (s : TcpAgent) : s.curseq ≤ s.outputNext.1.curseq := by
  simp only [outputNext, output]
  split_ifs <;> omega

theorem outputNext_orderly (orderly : s.Orderly) : s.outputNext.1.Orderly where
  __ := orderly
  ahead := orderly.ahead.trans (Int.lt_succ _)
  contiguous := by
    simp only [outputNext, output]
    omega
  timed _ := rfl

theorem Sends.sent (sends : Sends s ps t) : Sent s ps t := by
  induction sends with
  | done s => exact ⟨rfl, rfl, le_rfl, le_rfl, id, fun _ none => absurd none List.not_mem_nil, fun pending => pending.resolve_right fun none => none rfl⟩
  | @next s t ps data window _ ih =>
    have counted : s.curseq ≤ t.curseq := (outputNext_curseq s).trans ih.curseq
    refine ⟨ih.config, ih.highestAck, (le_max_left ..).trans ih.maxseq, counted, fun orderly => ih.orderly (outputNext_orderly orderly),
      fun p member => ?_, fun _ => ih.timed (Or.inl rfl)⟩
    rcases List.mem_cons.mp member with rfl | later
    · exact ⟨le_rfl, (le_max_right ..).trans ih.maxseq, data.trans_le counted, window, rfl⟩
    · obtain ⟨low, rest⟩ := ih.each p later
      exact ⟨(Int.lt_succ s.tSeqno).le.trans low, rest⟩

theorem window_le (s : TcpAgent) : (s.window : ℚ) ≤ s.config.wnd := by
  unfold window
  split_ifs with below
  · exact (Int.floor_le _).trans below.le
  · exact Int.floor_le _

theorem sends_sendLoop (n : ℕ) (s : TcpAgent) : Sends s (s.sendLoop n).2 (s.sendLoop n).1 := by
  induction n generalizing s with
  | zero => exact .done s
  | succ n ih =>
    rw [sendLoop]
    split_ifs with more
    · have window : (s.tSeqno : ℚ) ≤ s.highestAck + s.window := by exact_mod_cast more.1
      exact .next more.2 (window.trans (by linarith [s.window_le])) (ih _)
    · exact .done s

theorem sends_sendMuch (s : TcpAgent) : Sends s s.sendMuch.2 s.sendMuch.1 := sends_sendLoop _ s

/-- The next packet is sent when the window and the data allow it. -/
theorem sendMuch_next (room : s.tSeqno ≤ s.highestAck + s.window) (data : s.tSeqno < s.curseq) :
    ⟨s.tSeqno, s.config.packetSize s.tSeqno⟩ ∈ s.sendMuch.2 := by
  have one : ∃ n, (if s.config.maxburst = 0 then (s.highestAck + s.window + 1 - s.tSeqno).toNat
      else min s.config.maxburst (s.highestAck + s.window + 1 - s.tSeqno).toNat) = n + 1 := by
    refine Nat.exists_eq_succ_of_ne_zero ?_
    split_ifs <;> omega
  obtain ⟨n, passes⟩ := one
  simp only [sendMuch, passes, sendLoop, if_pos (And.intro room data)]
  exact List.mem_cons_self

/-- Where data is left to be acknowledged, the timer is pending. -/
def Timed (s : TcpAgent) : Prop := s.highestAck + 1 < s.curseq → s.rtxPending

theorem sendLoop_stop (stop : s.curseq ≤ s.tSeqno) (n : ℕ) : s.sendLoop n = (s, []) := by
  cases n with
  | zero => rfl
  | succ n => exact if_neg fun more => absurd more.2 (not_lt.mpr stop)

theorem Orderly.window_pos (orderly : s.Orderly) (valid : s.config.Valid) : 1 ≤ s.window := by
  unfold window
  split_ifs
  · exact Int.le_floor.mpr (by exact_mod_cast orderly.cwnd)
  · exact Int.le_floor.mpr (by exact_mod_cast valid.wnd)

/-- What the functions of an agent do, with the acknowledgement that they leave. -/
structure Moves (s : TcpAgent) (ack : ℤ) (r : TcpAgent × List TcpPacket) : Prop where
  config : r.1.config = s.config
  highestAck : r.1.highestAck = ack
  maxseq : s.maxseq ≤ r.1.maxseq
  orderly : r.1.Orderly
  timed : r.1.Timed
  each : ∀ p ∈ r.2, ack < p.seqno ∧ p.seqno ≤ r.1.maxseq ∧ p.seqno < r.1.curseq ∧ (p.seqno : ℚ) ≤ ack + s.config.wnd ∧ 0 < p.size

/-- Behind `send_much` the timer is pending where data is left. -/
theorem timed_sendMuch (valid : s.config.Valid) (orderly : s.Orderly) : s.sendMuch.1.Timed := by
  intro left
  have sent := (sends_sendMuch s).sent
  have window := orderly.window_pos valid
  have ahead := orderly.ahead
  have contiguous := orderly.contiguous
  by_cases next : s.tSeqno < s.curseq ∧ s.tSeqno = s.highestAck + 1
  · exact sent.timed (Or.inr (List.ne_nil_of_mem (sendMuch_next (by omega) next.1)))
  · refine sent.timed (Or.inl (orderly.timed ?_))
    by_cases data : s.tSeqno < s.curseq
    · omega
    · rw [sent.highestAck, show s.sendMuch = (s, []) from sendLoop_stop (not_lt.mp data) _] at left
      simp only at left
      omega

/-- An agent is brought into order, and sends from there. -/
theorem Orderly.moves (orderly : t.Orderly) (config : t.config = s.config) (maxseq : t.maxseq = s.maxseq) (valid : s.config.Valid)
    (sends : Sends t ps u) (timed : u.Timed) : Moves s t.highestAck (u, ps) where
  config := sends.sent.config.trans config
  highestAck := sends.sent.highestAck
  maxseq := maxseq ▸ sends.sent.maxseq
  orderly := sends.sent.orderly orderly
  timed := timed
  each p sent := by
    obtain ⟨low, high, data, window, size⟩ := sends.sent.each p sent
    rw [config] at window size
    exact ⟨orderly.ahead.trans_le low, high, data, window, size ▸ valid.sized _⟩

theorem Orderly.moves_sendMuch (orderly : t.Orderly) (config : t.config = s.config) (maxseq : t.maxseq = s.maxseq) (valid : s.config.Valid)
    (sends : Sends t ps u) : Moves s t.highestAck (u.sendMuch.1, ps ++ u.sendMuch.2) := by
  refine orderly.moves config maxseq valid (sends.append (sends_sendMuch u)) (timed_sendMuch ?_ (sends.sent.orderly orderly))
  rwa [sends.sent.config, config]

/-- Only the end of the data is moved. -/
theorem moves_curseq (valid : s.config.Valid) (orderly : s.Orderly) (curseq : ℤ) : Moves s s.highestAck { s with curseq }.sendMuch :=
  Orderly.moves_sendMuch (s := s) (t := { s with curseq }) { orderly with } rfl rfl valid (.done _)

theorem closeWindow_rest (s : TcpAgent) : s.closeWindow.config = s.config ∧ s.closeWindow.maxseq = s.maxseq ∧
    s.closeWindow.curseq = s.curseq ∧ s.closeWindow.lastAck = s.lastAck ∧ s.closeWindow.highestAck = s.highestAck ∧
    (1 ≤ s.wndInit → 1 ≤ s.closeWindow.wndInit) ∧ 1 ≤ s.closeWindow.cwnd := by
  unfold closeWindow
  dsimp only
  split_ifs
  · exact ⟨rfl, rfl, rfl, rfl, rfl, id, le_max_right ..⟩
  · exact ⟨rfl, rfl, rfl, rfl, rfl, fun _ => le_rfl, le_rfl⟩
  · exact ⟨rfl, rfl, rfl, rfl, rfl, id, le_rfl⟩

theorem Orderly.covered (orderly : s.Orderly) : s.highestAck ≤ s.maxseq := by
  have ahead := orderly.ahead
  have contiguous := orderly.contiguous
  omega

/-- An agent is in order when its timer has been reset. -/
theorem Orderly.reset (orderly : s.Orderly) (maxseq : t.maxseq = s.maxseq) (lastAck : t.lastAck = s.lastAck)
    (highestAck : t.highestAck = s.highestAck) (wndInit : 1 ≤ t.wndInit) (cwnd : 1 ≤ t.cwnd) : t.resetRtxTimer.Orderly where
  same := lastAck.trans (orderly.same.trans highestAck.symm)
  begun := highestAck.symm ▸ orderly.begun
  ahead := Int.lt_succ _
  contiguous := by
    have covered := orderly.covered
    simp only [resetRtxTimer]
    omega
  cwnd := cwnd
  wndInit := wndInit
  timed _ := rfl

/-- The first packet that has not been acknowledged is sent again. -/
theorem moves_timeout (valid : s.config.Valid) (orderly : s.Orderly) : Moves s s.highestAck s.timeout ∧
    (s.highestAck + 1 < s.curseq → ⟨s.highestAck + 1, s.config.packetSize (s.highestAck + 1)⟩ ∈ s.timeout.2) := by
  obtain ⟨config, maxseq, curseq, lastAck, highestAck, wndInit, cwnd⟩ := s.closeWindow_rest
  have inOrder := orderly.reset maxseq lastAck highestAck (wndInit orderly.wndInit) cwnd
  constructor
  · have moves := inOrder.moves_sendMuch (s := s) config maxseq valid (.done _)
    exact highestAck ▸ moves
  · intro left
    have window := inOrder.window_pos (by exact config.symm ▸ valid)
    have next := sendMuch_next (s := s.closeWindow.resetRtxTimer) (by simp only [resetRtxTimer] at window ⊢; omega)
      (by simp only [resetRtxTimer]; omega)
    rw [← highestAck, ← config]
    exact next

theorem newack_orderly (orderly : s.Orderly) {seqno : ℤ} (fresh : s.lastAck < seqno) (sent : seqno ≤ s.maxseq) : (s.newack seqno).Orderly where
  same := rfl
  begun := by
    have begun := orderly.begun
    have same := orderly.same
    simp only [newack]
    omega
  ahead := by
    simp only [newack]
    omega
  contiguous := by
    have contiguous := orderly.contiguous
    simp only [newack]
    omega
  cwnd := orderly.cwnd
  wndInit := orderly.wndInit
  timed outstanding := by
    simp only [newack, newtimer] at outstanding ⊢
    split_ifs <;> exact decide_eq_true (Or.inr (Or.inl outstanding))

theorem Orderly.withCwnd (orderly : s.Orderly) {cwnd : ℚ} (room : 1 ≤ cwnd) : { s with cwnd }.Orderly :=
  { orderly with cwnd := room }

theorem Orderly.opencwnd (orderly : s.Orderly) (valid : s.config.Valid) : s.opencwnd.Orderly := by
  have cwnd := orderly.cwnd
  have positive : 0 ≤ s.config.increaseNum / s.cwnd := div_nonneg valid.increaseNum (by linarith)
  have increased : 1 ≤ s.increased := by
    unfold TcpAgent.increased
    split_ifs <;> linarith
  refine orderly.withCwnd ?_
  split_ifs with limited
  · exact_mod_cast Nat.one_le_iff_ne_zero.mpr limited.1
  · exact increased

theorem recvNewack_orderly (valid : s.config.Valid) (orderly : s.Orderly) {seqno : ℤ} (fresh : s.lastAck < seqno) (sent : seqno ≤ s.maxseq) :
    (s.recvNewack seqno).Orderly ∧ (s.recvNewack seqno).config = s.config ∧ (s.recvNewack seqno).maxseq = s.maxseq ∧
      (s.recvNewack seqno).highestAck = seqno := by
  have opened := (newack_orderly orderly fresh sent).opencwnd valid
  unfold recvNewack
  dsimp only
  split_ifs
  · exact ⟨opened.withCwnd opened.wndInit, rfl, rfl, rfl⟩
  · exact ⟨opened, rfl, rfl, rfl⟩

theorem dupackAction_orderly (orderly : s.Orderly) : s.dupackAction.Orderly ∧ s.dupackAction.config = s.config ∧
    s.dupackAction.maxseq = s.maxseq ∧ s.dupackAction.highestAck = s.highestAck := by
  unfold dupackAction
  split_ifs
  · exact ⟨orderly.reset rfl rfl rfl orderly.wndInit le_rfl, rfl, rfl, rfl⟩
  · exact ⟨orderly, rfl, rfl, rfl⟩

theorem sends_sendOne (s : TcpAgent) : Sends s s.sendOne.2 s.sendOne.1 := by
  unfold sendOne
  split_ifs with room
  · exact .next room.2.1 room.1 (.done _)
  · exact .done s

/-- What is done for an acknowledgement before `send_much`: the agent is brought into order and sends one packet at most. -/
theorem recvAck_sends (valid : s.config.Valid) (orderly : s.Orderly) {seqno : ℤ} (sent : seqno ≤ s.maxseq) :
    ∃ t : TcpAgent, t.Orderly ∧ t.config = s.config ∧ t.maxseq = s.maxseq ∧ t.highestAck = max s.highestAck seqno ∧
      Sends t (s.recvAck seqno).2 (s.recvAck seqno).1 := by
  have same := orderly.same
  have counted : { s with dupacks := s.dupacks + 1 }.Orderly := { orderly with }
  unfold recvAck
  dsimp only
  split_ifs with fresh again retransmit
  · obtain ⟨inOrder, config, maxseq, highestAck⟩ := recvNewack_orderly valid orderly fresh sent
    exact ⟨_, inOrder, config, maxseq, highestAck.trans (by omega), .done _⟩
  · obtain ⟨inOrder, config, maxseq, highestAck⟩ := dupackAction_orderly counted
    exact ⟨_, inOrder, config, maxseq, highestAck.trans (by simp only; omega), .done _⟩
  · exact ⟨_, counted, rfl, rfl, by simp only; omega, sends_sendOne _⟩
  · exact ⟨_, counted, rfl, rfl, by simp only; omega, .done _⟩
  · exact ⟨s, orderly, rfl, rfl, by omega, .done s⟩

theorem moves_recv (valid : s.config.Valid) (orderly : s.Orderly) (timed : s.Timed) {seqno : ℤ} (sent : seqno ≤ s.maxseq) :
    Moves s (max s.highestAck seqno) (s.recv seqno) := by
  obtain ⟨t, inOrder, config, maxseq, highestAck, sends⟩ := recvAck_sends valid orderly sent
  rw [← highestAck]
  unfold recv
  dsimp only
  split_ifs with useful
  · exact inOrder.moves_sendMuch config maxseq valid sends
  · refine inOrder.moves config maxseq valid sends ?_
    have old : seqno < s.lastAck := by
      have acked := (sends.sent.orderly inOrder).same
      rw [sends.sent.highestAck, highestAck] at acked
      have same := orderly.same
      omega
    rwa [recvAck, if_neg (by omega), if_neg (by omega)]

end TcpAgent

structure SinkOptions where
  delAck : Bool
  rfc2581ImmediateAck : Bool
  synImmediateAck : Bool

/-- A `TcpAgent` and a `TcpSink`, or a `DelAckSink`, with what has been sent between them:
each packet may come at any time, any number of times, or never. -/
structure TcpConnection where
  options : SinkOptions
  sender : TcpAgent
  sink : Acker
  /-- An acknowledgement waits for the delay timer. -/
  delayed : Bool
  data : List TcpPacket
  acks : List ℤ
  /-- What has come to the sink. -/
  arrived : List Arrival

inductive TcpEvent
  | sendmsg (nbytes : ℤ)
  | advanceby (delta : ℤ)
  | timeout
  | data (i : ℕ)
  | ack (i : ℕ)
  | delayTimeout

namespace TcpConnection

def start (config : TcpConfig) (options : SinkOptions) : TcpConnection := ⟨options, .init config, .init, false, [], [], []⟩

/-- `TcpSink::ack`. -/
def acknowledge (c : TcpConnection) : TcpConnection := { c with delayed := false, acks := c.acks ++ [(c.sink.next : ℤ) - 1] }

/-- An acknowledgement that a `DelAckSink` holds back. -/
def Delays (c : TcpConnection) (seqno : ℤ) : Prop :=
  c.options.delAck ∧ ¬c.delayed ∧ seqno = c.sink.next - 1 ∧ ¬(c.options.rfc2581ImmediateAck ∧ seqno < c.sink.maxseen) ∧
    ¬(c.options.synImmediateAck ∧ seqno = 0)

instance (c : TcpConnection) (seqno : ℤ) : Decidable (c.Delays seqno) := inferInstanceAs (Decidable (_ ∧ _))

/-- `recv` of the sink. -/
def deliver (c : TcpConnection) (p : TcpPacket) : Option TcpConnection := do
  let (sink, _) ← c.sink.update p.seqno.toNat p.size
  let c := { c with sink, arrived := c.arrived ++ [p.arrival] }
  return if c.Delays p.seqno then { c with delayed := true } else c.acknowledge

def sent (c : TcpConnection) (r : TcpAgent × List TcpPacket) : TcpConnection × List TcpPacket :=
  ({ c with sender := r.1, data := c.data ++ r.2 }, r.2)

/-- The answer is what the agent sends. -/
def component : Machine TcpConnection TcpEvent (List TcpPacket) where
  step c
    | .sendmsg nbytes => some (c.sent (c.sender.sendmsg nbytes))
    | .advanceby delta => some (c.sent (c.sender.advanceby delta))
    | .timeout => if c.sender.rtxPending then some (c.sent c.sender.timeout) else none
    | .data i => c.data[i]? >>= fun p => (c.deliver p).map fun c => (c, [])
    | .ack i => c.acks[i]?.map fun seqno => c.sent (c.sender.recv seqno)
    | .delayTimeout => if c.delayed then some (c.acknowledge, []) else none

/-- What is known of the two ends and of everything under way. -/
structure Sound (c : TcpConnection) : Prop where
  valid : c.sender.config.Valid
  orderly : c.sender.Orderly
  timed : c.sender.Timed
  tracks : Acker.Tracks c.arrived c.sink
  data : ∀ p ∈ c.data, 0 ≤ p.seqno ∧ p.seqno ≤ c.sender.maxseq ∧ 0 < p.size
  arrived : ∀ x ∈ c.arrived, (x.seq : ℤ) ≤ c.sender.maxseq
  acks : ∀ ack ∈ c.acks, ack < c.sink.next
  acked : c.sender.highestAck < c.sink.next

variable {c d : TcpConnection} {r : TcpAgent × List TcpPacket} {ack : ℤ}

/-- Nothing is acknowledged that has not been sent. -/
theorem Sound.next_le (sound : c.Sound) : (c.sink.next : ℤ) ≤ c.sender.maxseq + 1 := by
  rcases Nat.eq_zero_or_pos c.sink.next with none | some
  · have begun := sound.orderly.begun
    have covered := sound.orderly.covered
    omega
  · obtain ⟨x, came, same⟩ := sound.tracks.below (c.sink.next - 1) (by omega)
    have bound := sound.arrived x came
    omega

theorem Sound.sent (sound : c.Sound) (moves : c.sender.Moves ack r) (acked : ack < c.sink.next) : (c.sent r).1.Sound where
  valid := by
    simp only [TcpConnection.sent, moves.config]
    exact sound.valid
  orderly := moves.orderly
  timed := moves.timed
  tracks := sound.tracks
  data p member := by
    have begun := moves.orderly.begun
    rcases List.mem_append.mp member with old | new
    · obtain ⟨low, high, size⟩ := sound.data p old
      exact ⟨low, high.trans moves.maxseq, size⟩
    · obtain ⟨low, high, -, -, size⟩ := moves.each p new
      rw [moves.highestAck] at begun
      exact ⟨by omega, high, size⟩
  arrived x came := (sound.arrived x came).trans moves.maxseq
  acks := sound.acks
  acked := moves.highestAck.symm ▸ acked

theorem Sound.acknowledge (sound : c.Sound) : c.acknowledge.Sound where
  __ := sound
  acks ack member := by
    rcases List.mem_append.mp member with old | new
    · exact sound.acks ack old
    · rw [List.mem_singleton.mp new]
      exact Int.sub_one_lt_of_le le_rfl

/-- A data packet comes to the sink, which acknowledges it or waits. -/
theorem Sound.deliver (sound : c.Sound) {p : TcpPacket} (member : p ∈ c.data) : ∃ d, c.deliver p = some d ∧ d.Sound ∧ d.sender = c.sender ∧
    d.arrived = c.arrived ++ [p.arrival] ∧ (d.delayed ∨ (d.sink.next : ℤ) - 1 ∈ d.acks) := by
  obtain ⟨low, high, size⟩ := sound.data p member
  obtain ⟨sink, bytes, updated, tracks, -, advanced, -⟩ := sound.tracks.updated (x := p.arrival) size
  have come : { c with sink, arrived := c.arrived ++ [p.arrival] }.Sound :=
    { sound with
      tracks := tracks
      arrived := by
        intro x came
        rcases List.mem_append.mp came with old | new
        · exact sound.arrived x old
        · rw [List.mem_singleton.mp new]
          exact (Int.toNat_of_nonneg low).trans_le high
      acks := fun ack old => (sound.acks ack old).trans_le (by exact_mod_cast advanced)
      acked := sound.acked.trans_le (by exact_mod_cast advanced) }
  unfold TcpConnection.deliver
  rw [show c.sink.update p.seqno.toNat p.size = some (sink, bytes) from updated]
  simp only [Option.bind_eq_bind, Option.bind_some, Option.pure_def, Option.some.injEq, exists_eq_left']
  split_ifs
  · exact ⟨{ come with }, rfl, rfl, Or.inl rfl⟩
  · exact ⟨come.acknowledge, rfl, rfl, Or.inr (List.mem_append_right _ (List.mem_singleton_self _))⟩

/-- A step keeps to what is known, and sends in the window that it leaves. -/
theorem Sound.step (sound : c.Sound) {event : TcpEvent} {ps : List TcpPacket} (taken : component.step c event = some (d, ps)) : d.Sound ∧
    ∀ p ∈ ps, d.sender.highestAck < p.seqno ∧ p.seqno < d.sender.curseq ∧ (p.seqno : ℚ) ≤ d.sender.highestAck + d.sender.config.wnd := by
  have sends {ack : ℤ} {r : TcpAgent × List TcpPacket} (moves : c.sender.Moves ack r) (acked : ack < c.sink.next)
      (same : c.sent r = (d, ps)) : d.Sound ∧ ∀ p ∈ ps, d.sender.highestAck < p.seqno ∧ p.seqno < d.sender.curseq ∧
        (p.seqno : ℚ) ≤ d.sender.highestAck + d.sender.config.wnd := by
    cases same
    refine ⟨sound.sent moves acked, fun p sent => ?_⟩
    obtain ⟨low, -, data, window, -⟩ := moves.each p sent
    simp only [moves.highestAck, moves.config]
    exact ⟨low, data, window⟩
  cases event with
  | sendmsg nbytes => exact sends (TcpAgent.moves_curseq sound.valid sound.orderly _) sound.acked (Option.some.inj taken)
  | advanceby delta => exact sends (TcpAgent.moves_curseq sound.valid sound.orderly _) sound.acked (Option.some.inj taken)
  | timeout =>
    obtain ⟨-, same⟩ := Option.ite_none_right_eq_some.mp taken
    exact sends (TcpAgent.moves_timeout sound.valid sound.orderly).1 sound.acked (Option.some.inj same)
  | data i =>
    obtain ⟨p, found, delivered⟩ := Option.bind_eq_some_iff.mp taken
    obtain ⟨e, came, after, -⟩ := sound.deliver (List.mem_of_getElem? found)
    rw [came] at delivered
    cases Option.some.inj delivered
    exact ⟨after, fun p none => absurd none List.not_mem_nil⟩
  | ack i =>
    obtain ⟨seqno, found, same⟩ := Option.map_eq_some_iff.mp taken
    have known := sound.acks seqno (List.mem_of_getElem? found)
    have next := sound.next_le
    have acked := sound.acked
    exact sends (TcpAgent.moves_recv sound.valid sound.orderly sound.timed (by omega)) (by omega) same
  | delayTimeout =>
    obtain ⟨-, same⟩ := Option.ite_none_right_eq_some.mp taken
    cases Option.some.inj same
    exact ⟨sound.acknowledge, fun p none => absurd none List.not_mem_nil⟩

/-- Where data is left, the timer is pending, and a timeout can be followed by steps that acknowledge some of it. -/
theorem Sound.advances (sound : c.Sound) (left : c.sender.highestAck + 1 < c.sender.curseq) : c.sender.rtxPending ∧
    ∃ events d outs, component.run c (.timeout :: events) = some (d, outs) ∧ c.sender.highestAck < d.sender.highestAck := by
  have pending := sound.timed left
  refine ⟨pending, ?_⟩
  obtain ⟨moves, again⟩ := TcpAgent.moves_timeout sound.valid sound.orderly
  have resent := List.mem_append_right c.data (again left)
  obtain ⟨i, place⟩ := List.mem_iff_getElem?.mp resent
  obtain ⟨d, came, after, sender, arrived, answered⟩ := (sound.sent moves sound.acked).deliver resent
  have complete : c.sender.highestAck + 1 < d.sink.next := by
    by_contra low
    refine after.tracks.missing ?_
    rw [arrived, Acker.received_append]
    rcases (not_lt.mp low).lt_or_eq with earlier | same
    · have acked := sound.acked
      exact Or.inl (sound.tracks.below d.sink.next (by omega))
    · exact Or.inr (by simp only [TcpPacket.arrival]; omega)
  obtain ⟨between, e, outs, waited, heard, listening, known⟩ : ∃ between e outs, component.run d between = some (e, outs) ∧
      (d.sink.next : ℤ) - 1 ∈ e.acks ∧ e.sender = d.sender ∧ e.Sound := by
    rcases answered with delayed | acknowledged
    · exact ⟨[.delayTimeout], d.acknowledge, [[]], by simp [Machine.run, component, delayed],
        List.mem_append_right _ (List.mem_singleton_self _), rfl, after.acknowledge⟩
    · exact ⟨[], d, [], rfl, acknowledged, rfl, after⟩
  obtain ⟨j, found⟩ := List.mem_iff_getElem?.mp heard
  have next := known.next_le
  have bound := known.acks _ heard
  have acked := TcpAgent.moves_recv known.valid known.orderly known.timed (show (d.sink.next : ℤ) - 1 ≤ e.sender.maxseq by omega)
  have expires : component.step c .timeout = some ((c.sent c.sender.timeout).1, c.sender.timeout.2) := if_pos pending
  have carried : component.step (c.sent c.sender.timeout).1 (.data i) = some (d, []) := by
    simp only [component]
    rw [show (c.sent c.sender.timeout).1.data[i]? = some _ from place]
    simp only [Option.bind_eq_bind, Option.bind_some, came, Option.map_some]
  have answers : component.step e (.ack j) = some ((e.sent (e.sender.recv (d.sink.next - 1))).1, (e.sender.recv (d.sink.next - 1)).2) := by
    simp only [component, found, Option.map_some]
    rfl
  refine ⟨.data i :: (between ++ [.ack j]), (e.sent (e.sender.recv (d.sink.next - 1))).1,
    c.sender.timeout.2 :: [] :: (outs ++ [(e.sender.recv (d.sink.next - 1)).2]), ?_, ?_⟩
  · rw [Machine.run_cons expires, Machine.run_cons carried, Machine.run_append waited, Machine.run_cons answers]
    rfl
  · simp only [TcpConnection.sent, acked.highestAck]
    omega

theorem sound_start {config : TcpConfig} (valid : config.Valid) (options : SinkOptions) : (start config options).Sound where
  valid := valid
  orderly := by
    refine ⟨rfl, le_rfl, neg_one_lt_zero, le_rfl, ?_, valid.wndInit, fun none => absurd none (lt_irrefl _)⟩
    simp only [start, TcpAgent.init]
    split_ifs
    · exact le_rfl
    · exact valid.wndInit
  timed none := absurd none (lt_irrefl _)
  tracks := Acker.init_tracks
  data _ none := absurd none List.not_mem_nil
  arrived _ none := absurd none List.not_mem_nil
  acks _ none := absurd none List.not_mem_nil
  acked := neg_one_lt_zero

theorem run_sound {config : TcpConfig} (valid : config.Valid) {options : SinkOptions} {events : List TcpEvent}
    {outs : List (List TcpPacket)} (ran : component.run (start config options) events = some (c, outs)) : c.Sound :=
  Machine.run_kept (P := fun _ _ => True) (fun _ _ _ _ holds _ taken => (Sound.step holds taken).1) (sound_start valid options)
    (Machine.along_trivial ..) ran

/-- What has been acknowledged has come to the sink, and the sink waits for nothing beyond what has been sent. -/
structure Reliable (c : TcpConnection) : Prop where
  acked : c.sender.highestAck < c.sink.next
  arrived : ∀ k : ℕ, (k : ℤ) ≤ c.sender.highestAck → Acker.Received c.arrived k
  sent : (c.sink.next : ℤ) ≤ c.sender.maxseq + 1
  ahead : c.sender.highestAck < c.sender.tSeqno ∧ c.sender.tSeqno ≤ c.sender.maxseq + 1

/-- In every run over a network that loses, repeats and reorders packets. -/
theorem connection_reliable {config : TcpConfig} (valid : config.Valid) (options : SinkOptions) (events : List TcpEvent) :
    component.Throughout Reliable (start config options) events := by
  intro first _ last outs _ ran
  have sound := run_sound valid ran
  have acked := sound.acked
  exact ⟨acked, fun k low => sound.tracks.below k (by omega), sound.next_le, sound.orderly.ahead, sound.orderly.contiguous⟩

/-- The defaults, with packets of 1000 bytes. -/
def defaults : TcpConfig := ⟨20, 2, 0, 1, 0, 3, 1000, 40, 40, true, true, true, true, false, true, true, true, true, true, true⟩

theorem valid_defaults : defaults.Valid where
  wnd := show (1 : ℚ) ≤ 20 by norm_num
  wndInit := show (1 : ℚ) ≤ 2 by norm_num
  increaseNum := zero_le_one
  sized seqno := by
    unfold TcpConfig.packetSize
    split_ifs <;> decide

theorem connection_reliable_sample : component.Throughout Reliable (start defaults ⟨true, true, true⟩) [.sendmsg 3000, .data 0, .ack 0, .timeout] :=
  connection_reliable valid_defaults _ _

/-- The step from here sends in the window of the sender that it leaves, and only of the data. -/
def SendsInWindow (c : TcpConnection) (event : TcpEvent) : Prop := ∀ d ps, component.step c event = some (d, ps) → ∀ p ∈ ps,
  d.sender.highestAck < p.seqno ∧ p.seqno < d.sender.curseq ∧ (p.seqno : ℚ) ≤ d.sender.highestAck + d.sender.config.wnd

theorem connection_window {config : TcpConfig} (valid : config.Valid) (options : SinkOptions) (events : List TcpEvent) :
    component.Along SendsInWindow (start config options) events :=
  Machine.along_of_kept (P := fun _ _ => True) (fun _ _ _ _ holds _ taken => (Sound.step holds taken).1)
    (fun _ _ holds _ _ _ taken => (Sound.step holds taken).2) (sound_start valid options) (Machine.along_trivial ..)

theorem connection_window_sample : component.Along SendsInWindow (start defaults ⟨true, true, true⟩) [.sendmsg 3000, .data 0, .ack 0, .timeout] :=
  connection_window valid_defaults _ _

/-- Where data is left, the retransmit timer is pending, and behind it there are steps that acknowledge some of the data. -/
def Advances (c : TcpConnection) : Prop := c.sender.highestAck + 1 < c.sender.curseq → c.sender.rtxPending ∧
  ∃ events d outs, component.run c (.timeout :: events) = some (d, outs) ∧ c.sender.highestAck < d.sender.highestAck

theorem connection_advances {config : TcpConfig} (valid : config.Valid) (options : SinkOptions) (events : List TcpEvent) :
    component.Throughout Advances (start config options) events := by
  intro first _ last outs _ ran left
  exact (run_sound valid ran).advances left

theorem connection_advances_sample : component.Throughout Advances (start defaults ⟨true, true, true⟩) [.sendmsg 3000, .timeout] :=
  connection_advances valid_defaults _ _

end TcpConnection

end Ns2
