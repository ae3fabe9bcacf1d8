import Ns2.Library.Machine
import Ns2.Queue.TrafficLevel
import Mathlib.Algebra.BigOperators.Group.Finset.Basic
import Mathlib.Data.Rat.Floor

namespace Ns2

/-- Functions of the C library. -/
structure Libm where
  pow : ℚ → ℚ → ℚ
  exp : ℚ → ℚ

namespace REDQueue

def ptAck : ℕ := 5

def ptPareto : ℕ := 28

/-- The header fields that the queue reads or writes. `uid` tells packets apart. -/
structure Packet where
  uid : ℕ
  size : ℕ
  ptype : ℕ
  ect : Bool
  ce : Bool
deriving DecidableEq

/-- Early drop parameters, supplied by the user. -/
structure Edp where
  meanPktsize : ℕ
  idlePktsize : ℕ
  bytes : Bool
  wait : Bool
  setbit : Bool
  gentle : Bool
  thMin : ℚ
  thMinPkts : ℚ
  thMax : ℚ
  thMaxPkts : ℚ
  maxPInv : ℚ
  markP : ℚ
  useMarkP : Bool
  qW : ℚ
  adaptive : ℤ
  cautious : ℤ
  alpha : ℚ
  beta : ℚ
  interval : ℚ
  targetdelay : ℚ
  top : ℚ
  bottom : ℚ
  fengAdaptive : ℤ
  ptc : ℚ
  delay : ℚ
deriving DecidableEq

inductive Status
  | above
  | below
  | between
deriving DecidableEq

/-- Early drop variables, maintained by RED. -/
structure Edv where
  vAve : ℚ
  vProb1 : ℚ
  vProb : ℚ
  vA : ℚ
  vB : ℚ
  vC : ℚ
  vD : ℚ
  count : ℕ
  countBytes : ℕ
  old : Bool
  curMaxP : ℚ
  lastset : ℚ
  status : Status
deriving DecidableEq

end REDQueue

/-- `q` holds the packets from `head_` to `tail_`, `link` is the bandwidth of `link_`,
and `deDrop` says that there is a `de_drop_`. -/
structure REDQueue where
  link : Option ℚ
  q : List REDQueue.Packet
  qlim : ℕ
  qib : Bool
  deDrop : Bool
  dropFront : Bool
  dropRand : Bool
  ns1Compat : Bool
  edp : REDQueue.Edp
  edv : REDQueue.Edv
  idle : Bool
  idletime : ℚ
  pared : ℤ
  hared : ℤ
  fared : ℤ
  ctn1 : ℚ
  pertime : ℚ
  avgtn1 : ℚ
  ek : ℕ → ℚ
  xk : ℕ → ℚ
  wk : ℕ → ℚ
  pktcntPers : ℕ
  pktcntPersLp : ℕ
  pktcntPersTp : ℕ
  pktcntPersLevel : ℕ
  pktcntPersMaxp : ℕ
  pktcntPersF : ℕ
  dropCntPers : ℕ
  tpCntPers : ℕ

namespace REDQueue

/-- The mean of the packets of an interval. -/
def E1 : ℚ := 8948349 / 100000

/-- Their deviation. -/
def D1 : ℚ := 460072 / 100000

def scale : List ℚ :=
  [557895 / 100000, 563293 / 100000, 519220 / 100000, 471527 / 100000, 414248 / 100000, 398733 / 100000, 358955 / 100000, 0]

/-- The conversion of a `double` to `int`. -/
def truncate (x : ℚ) : ℤ := x.num.tdiv x.den

/-- The parameters as the defaults of the library bind them. -/
def Edp.defaults : Edp where
  meanPktsize := 500
  idlePktsize := 100
  bytes := true
  wait := true
  setbit := false
  gentle := true
  thMin := 50
  thMinPkts := 0
  thMax := 50
  thMaxPkts := 0
  maxPInv := 10
  markP := 1 / 10
  useMarkP := true
  qW := -1
  adaptive := 0
  cautious := 0
  alpha := 1 / 100
  beta := 9 / 10
  interval := 1 / 2
  targetdelay := 5 / 1000
  top := 1 / 2
  bottom := 0
  fengAdaptive := 0
  ptc := 0
  delay := 0

/-- The queue that the constructor leaves. The arguments are the members that it does not set. -/
def make (status : Status) (avgtn1 : ℚ) (pktcntPersLevel : ℕ) : REDQueue where
  link := none
  q := []
  qlim := 50
  qib := true
  deDrop := false
  dropFront := false
  dropRand := false
  ns1Compat := false
  edp := Edp.defaults
  edv := ⟨0, 0, 0, 0, 0, 0, 0, 0, 0, false, 0, 0, status⟩
  idle := true
  idletime := 0
  pared := 0
  hared := 0
  fared := 0
  ctn1 := 300
  pertime := 2 / 10
  avgtn1 := avgtn1
  ek := fun _ => 0
  xk := fun _ => 0
  wk := fun _ => 0
  pktcntPers := 0
  pktcntPersLp := 0
  pktcntPersTp := 0
  pktcntPersLevel := pktcntPersLevel
  pktcntPersMaxp := 0
  pktcntPersF := 0
  dropCntPers := 0
  tpCntPers := 0

def byteLength (q : List Packet) : ℕ := (q.map Packet.size).sum

/-- The length of the queue in the unit in which it is measured. -/
def qlen (s : REDQueue) : ℕ := if s.qib then byteLength s.q else s.q.length

/-- The limit in the same unit. -/
def limit (s : REDQueue) : ℕ := if s.qib then s.qlim * s.edp.meanPktsize else s.qlim

/-- `initialize_params` with the bandwidth of the link. -/
def initializeParams (lib : Libm) (bandwidth : ℚ) (p : Edp) : Edp :=
  let p :=
    if p.qW = 0 then { p with qW := 1 - lib.exp (-1 / p.ptc) }
    else if p.qW = -1 then
      let rtt := 3 * (p.delay + 1 / p.ptc)
      let rtt := if rtt < 1 / 10 then 1 / 10 else rtt
      { p with qW := 1 - lib.exp (-1 / (10 * rtt * p.ptc)) }
    else if p.qW = -2 then { p with qW := 1 - lib.exp (-10 / p.ptc) }
    else p
  let p :=
    if p.thMinPkts = 0 then
      let targetqueue := p.targetdelay * p.ptc
      { p with thMinPkts := if 5 < targetqueue / 2 then targetqueue / 2 else 5 }
    else p
  let p := if p.thMaxPkts = 0 then { p with thMaxPkts := 3 * p.thMinPkts } else p
  if p.bottom = 0 then
    let bottom1 := 80000 / bandwidth
    { p with bottom := if bottom1 < 1 / 100 then bottom1 else 1 / 100 }
  else p

def deque (s : REDQueue) (now : ℚ) : REDQueue × Option Packet :=
  match s.q with
  | [] => ({ s with idle := true, idletime := now }, none)
  | p :: q =>
    let s := { s with q := q, idle := false }
    if p.ptype = ptPareto then
      ({ s with pktcntPersTp := s.pktcntPersTp + 1, tpCntPers := s.tpCntPers + p.size }, some p)
    else (s, some p)

/-- The loop of `Queue::reset` over the packets in the queue, and the call that finds it empty. -/
def drain (now : ℚ) : ℕ → REDQueue → REDQueue × List Packet
  | 0, s => (s, [])
  | calls + 1, s =>
    match s.deque now with
    | (s, none) => (s, [])
    | (s, some p) =>
      let rest := drain now calls s
      (rest.1, p :: rest.2)

/-- The thresholds in the unit in which the queue is measured. -/
def scaleThresholds (qib : Bool) (p : Edp) : Edp :=
  if qib then { p with thMin := p.thMinPkts * p.meanPktsize, thMax := p.thMaxPkts * p.meanPktsize }
  else { p with thMin := p.thMinPkts, thMax := p.thMaxPkts }

/-- The parameters after `reset`. -/
def resetEdp (lib : Libm) (s : REDQueue) : Edp :=
  let p :=
    match s.link with
    | some bandwidth => initializeParams lib bandwidth { s.edp with ptc := bandwidth / (8 * s.edp.meanPktsize) }
    | none => s.edp
  let p := if p.thMaxPkts = 0 then { p with thMaxPkts := 3 * p.thMinPkts } else p
  scaleThresholds s.qib p

/-- The variables after `reset`. -/
def resetEdv (p : Edp) (v : Edv) : Edv :=
  let thDiff := p.thMax - p.thMin
  let thDiff := if thDiff = 0 then 1 else thDiff
  let v := { v with vAve := 0, count := 0, countBytes := 0, old := false }
  let v := { v with vA := 1 / thDiff, curMaxP := 1 / p.maxPInv, vB := -p.thMin / thDiff, lastset := 0 }
  if p.gentle then { v with vC := (1 - v.curMaxP) / p.thMax, vD := 2 * v.curMaxP - 1 } else v

def reset (lib : Libm) (s : REDQueue) (now : ℚ) : REDQueue × List Packet :=
  let p := resetEdp lib s
  let s := { s with edp := p, edv := resetEdv p s.edv, idle := true, idletime := now }
  drain now (s.q.length + 1) s

def updateMaxPFeng (s : REDQueue) (newAve : ℚ) : REDQueue :=
  let s := if s.edp.thMin < newAve ∧ newAve < s.edp.thMax then { s with edv.status := .between } else s
  let s :=
    if newAve < s.edp.thMin ∧ s.edv.status ≠ .below then
      { s with edv.status := .below, edv.curMaxP := s.edv.curMaxP / s.edp.alpha }
    else s
  if newAve > s.edp.thMax ∧ s.edv.status ≠ .above then
    { s with edv.status := .above, edv.curMaxP := s.edv.curMaxP * s.edp.beta }
  else s

def updateMaxP (s : REDQueue) (newAve now : ℚ) : REDQueue :=
  let part := 4 / 10 * (s.edp.thMax - s.edp.thMin)
  let s :=
    if newAve < s.edp.thMin + part ∧ s.edv.curMaxP > s.edp.bottom then
      { s with edv.curMaxP := s.edv.curMaxP * s.edp.beta }
    else if newAve > s.edp.thMax - part ∧ s.edp.top > s.edv.curMaxP then
      let alpha := if s.edp.alpha > 1 / 4 * s.edv.curMaxP then 1 / 4 * s.edv.curMaxP else s.edp.alpha
      { s with edv.curMaxP := s.edv.curMaxP + alpha }
    else s
  { s with edv.lastset := now }

def getLevel (s : REDQueue) : ℕ × REDQueue := (trafficLevel E1 D1 s.pktcntPersLevel, { s with pktcntPersLevel := 0 })

def updateMaxPYZR (s : REDQueue) (newAve now : ℚ) : REDQueue :=
  let measured := s.getLevel
  let level := measured.1
  let s := measured.2
  let part := 4 / 10 * (s.edp.thMax - s.edp.thMin)
  let s :=
    if newAve < s.edp.thMin + part ∧ s.edv.curMaxP > s.edp.bottom then
      { s with edp.beta := levelBeta level, edv.curMaxP := s.edv.curMaxP * levelBeta level }
    else if newAve > s.edp.thMax - part ∧ s.edp.top > s.edv.curMaxP then
      let alpha :=
        if level > 6 then levelAlpha s.edv.curMaxP level
        else if s.edv.curMaxP / 4 ≤ s.edp.alpha then s.edv.curMaxP / 4
        else s.edp.alpha
      { s with edv.curMaxP := s.edv.curMaxP + alpha }
    else s
  { s with edv.lastset := now }

/-- The inputs of the controller of `updateMaxP_H`. -/
def errors (ek : ℕ → ℚ) : ℕ → ℚ
  | 0 => ek 0 - ek 1
  | 1 => ek 0 - ek 2
  | 2 => ek 1 - ek 2
  | 3 => ek 0
  | _ => ek 0 - 2 * ek 1 + ek 2

def updateMaxPH (s : REDQueue) (now : ℚ) : REDQueue :=
  let ek : ℕ → ℚ
    | 0 => s.q.length - 25
    | 1 => s.ek 0
    | _ => s.ek 1
  let xk : ℕ → ℚ
    | 5 => (10 * s.pktcntPersMaxp / 375 : ℕ) - 1
    | 6 => s.xk 5
    | 7 => s.xk 6
    | 8 => 9 / 10
    | i => errors ek i
  let tempk := ∑ i ∈ Finset.range 9, s.wk i * xk i
  { s with
    ek := ek, xk := xk, wk := fun i => s.wk i + 100 * ek 0 * xk i,
    edv.curMaxP := max 0 (min tempk (1 / 2)) * (14 / 10), pktcntPersMaxp := 0, edv.lastset := now }

/-- The loop of the estimator, which multiplies once less than `m` says. -/
def decay (qW : ℚ) : ℕ → ℚ → ℚ
  | 0, ave => ave
  | m + 1, ave => decay qW m (ave * (1 - qW))

def newAverage (nqueued : ℕ) (m : ℤ) (ave qW : ℚ) : ℚ := decay qW (m - 1).toNat ave * (1 - qW) + qW * nqueued

/-- The adaptations at the end of the estimator. -/
def adapt (s : REDQueue) (newAve now : ℚ) : REDQueue :=
  let s :=
    if s.edp.adaptive = 1 then
      if s.edp.fengAdaptive = 1 then s.updateMaxPFeng newAve
      else if now > s.edv.lastset + s.edp.interval then s.updateMaxP newAve now
      else s
    else s
  let s := if s.pared = 1 then s.updateMaxPYZR newAve now else s
  let s := if s.pared = 2 then if now > s.edv.lastset + s.pertime then s.updateMaxPYZR newAve now else s else s
  if s.hared = 1 then if now > s.edv.lastset + s.pertime then s.updateMaxPH now else s else s

def estimator (s : REDQueue) (nqueued : ℕ) (m : ℤ) (ave qW now : ℚ) : ℚ × REDQueue :=
  let newAve := newAverage nqueued m ave qW
  (newAve, s.adapt newAve now)

def estimatorF (s : REDQueue) (nqueued : ℕ) (ave qW now : ℚ) : ℚ × REDQueue :=
  let measured := s.getLevel
  let level := measured.1
  let s := measured.2
  let atn1 := s.pktcntPersF * scale.getD (level - 1) 0 / level
  let qtn1 := max (nqueued + atn1 - s.ctn1 * (1 / 10)) 0
  let avgt1 := (1 - qW) * ave + qW * nqueued
  let s := { s with avgtn1 := (1 - qW) * avgt1 + qW * qtn1 }
  (avgt1, s.updateMaxPYZR s.avgtn1 now)

/-- Calculate the drop probability. -/
def calculatePNew (vAve thMax : ℚ) (gentle : Bool) (vA vB vC vD maxP : ℚ) : ℚ :=
  let p :=
    if gentle ∧ vAve ≥ thMax then vC * vAve + vD
    else if ¬gentle ∧ vAve ≥ thMax then 1
    else (vA * vAve + vB) * maxP
  if p > 1 then 1 else p

/-- Make uniform instead of geometric interdrop periods. -/
def modifyP (p : ℚ) (count countBytes : ℕ) (bytes : Bool) (meanPktsize : ℕ) (wait : Bool) (size : ℕ) : ℚ :=
  let count1 : ℚ := if bytes then (countBytes / meanPktsize : ℕ) else count
  let p :=
    if wait then if count1 * p < 1 then 0 else if count1 * p < 2 then p / (2 - count1 * p) else 1
    else if count1 * p < 1 then p / (1 - count1 * p)
    else 1
  let p := if bytes ∧ p < 1 then p * size / meanPktsize else p
  if p > 1 then 1 else p

/-- The probability of `drop_early` before and after it is made uniform. -/
def probabilities (s : REDQueue) (pkt : Packet) : ℚ × ℚ :=
  let prob1 := calculatePNew s.edv.vAve s.edp.thMax s.edp.gentle s.edv.vA s.edv.vB s.edv.vC s.edv.vD s.edv.curMaxP
  (prob1, modifyP prob1 s.edv.count s.edv.countBytes s.edp.bytes s.edp.meanPktsize s.edp.wait pkt.size)

/-- Should the packet be dropped or marked due to a probabilistic drop? `u` is the random number. -/
def dropEarly (lib : Libm) (s : REDQueue) (u : ℚ) (pkt : Packet) : Bool × Packet × REDQueue :=
  let prob := s.probabilities pkt
  let s := { s with edv.vProb1 := prob.1, edv.vProb := prob.2 }
  let fraction := lib.pow (1 - s.edp.qW) (s.edp.ptc * (5 / 100))
  if s.edp.cautious = 1 ∧ s.qlen < fraction * s.edv.vAve then (false, pkt, s)
  else
    let ratio := s.qlen / (fraction * s.edv.vAve)
    let u := if s.edp.cautious = 2 ∧ ratio < 1 then u * (1 / ratio) else u
    if u ≤ s.edv.vProb then
      let s := { s with edv.count := 0, edv.countBytes := 0 }
      if s.edp.setbit ∧ pkt.ect ∧ (¬s.edp.useMarkP ∨ s.edv.vProb1 < s.edp.markP) then (false, { pkt with ce := true }, s)
      else (true, pkt, s)
    else (false, pkt, s)

def dropEarlyF (s : REDQueue) (u : ℚ) : Bool :=
  let pb := s.edv.curMaxP * (s.avgtn1 - s.edp.thMin) / (s.edp.thMax - s.edp.thMin)
  decide (u ≤ pb)

/-- The place of the packet to drop; `drop_tail_` is not read. -/
def victim (s : REDQueue) (r : ℕ) : ℕ :=
  if s.dropFront then min 1 (s.q.length - 1)
  else if s.dropRand then r % s.q.length
  else s.q.length - 1

def pickPacketToDrop (s : REDQueue) (r : ℕ) : Option Packet := s.q[s.victim r]?

inductive Droptype
  | none
  | forced
  | unforced
deriving DecidableEq

/-- The random numbers of a call of `enque`. -/
structure Draws where
  early : ℚ
  fair : ℚ
  victim : ℕ
deriving DecidableEq

/-- What the loss rate, the throughput and the arrivals are reported to be. -/
structure Report where
  droprate : ℚ
  throughput : ℚ
  arrivals : ℕ
deriving DecidableEq

/-- What a call gives back, drops, hands to `de_drop_`, and reports. -/
structure Output where
  returned : Option Packet
  dropped : List Packet
  edropped : List Packet
  report : Option Report
deriving DecidableEq

def Output.quiet : Output := ⟨none, [], [], none⟩

/-- The counters of an arrival. -/
def countArrival (s : REDQueue) (pkt : Packet) : REDQueue :=
  if pkt.ptype = ptPareto then
    { s with
      pktcntPersLp := s.pktcntPersLp + 1, pktcntPers := s.pktcntPers + 1, pktcntPersLevel := s.pktcntPersLevel + 1,
      pktcntPersMaxp := s.pktcntPersMaxp + 1, pktcntPersF := s.pktcntPersF + 1 }
  else s

/-- The packets that are pretended to have arrived during the idle period. -/
def idleArrivals (s : REDQueue) (now : ℚ) : ℤ :=
  if s.idle then
    if s.edp.cautious = 3 then truncate (s.edp.ptc * s.edp.meanPktsize / s.edp.idlePktsize * (now - s.idletime))
    else truncate (s.edp.ptc * (now - s.idletime))
  else 0

/-- The part of `enque` that computes the average queue size. -/
def average (s : REDQueue) (now : ℚ) : REDQueue :=
  let m := s.idleArrivals now
  let s := { s with idle := false }
  if s.fared = 1 then
    if now > s.edv.lastset + s.pertime then
      let estimated := s.estimatorF s.qlen s.edv.vAve (45 / 1000) now
      { estimated.2 with edv.vAve := estimated.1 }
    else s
  else
    let estimated := s.estimator s.qlen (m + 1) s.edv.vAve s.edp.qW now
    { estimated.2 with edv.vAve := estimated.1 }

/-- The drop logic of RED for a packet that has been counted. -/
def judgeEarly (lib : Libm) (s : REDQueue) (u : ℚ) (pkt : Packet) : Droptype × Packet × REDQueue :=
  let qavg := s.edv.vAve
  if qavg ≥ s.edp.thMin ∧ s.qlen > 1 then
    if ¬s.edp.useMarkP ∧ (¬s.edp.gentle ∧ qavg ≥ s.edp.thMax ∨ s.edp.gentle ∧ qavg ≥ 2 * s.edp.thMax) then (.forced, pkt, s)
    else if s.edv.old = false then (.none, pkt, { s with edv.count := 1, edv.countBytes := pkt.size, edv.old := true })
    else
      let early := dropEarly lib s u pkt
      (if early.1 then .unforced else .none, early.2)
  else (.none, pkt, { s with edv.vProb := 0, edv.old := false })

/-- The drop logic of the fair variant, and that of a full queue. -/
def overrule (s : REDQueue) (u : ℚ) (droptype : Droptype) : Droptype :=
  let droptype :=
    if s.fared = 1 then
      if s.avgtn1 < s.edp.thMin then .none
      else if s.avgtn1 > s.edp.thMax then .forced
      else if s.dropEarlyF u then .forced
      else .none
    else droptype
  if s.qlen ≥ s.limit then .forced else droptype

/-- The part of `enque` up to the choice of the drop. -/
def judge (lib : Libm) (s : REDQueue) (now : ℚ) (draws : Draws) (pkt : Packet) : Droptype × Packet × REDQueue :=
  let s := (s.countArrival pkt).average now
  let s := { s with edv.count := s.edv.count + 1, edv.countBytes := s.edv.countBytes + pkt.size }
  let judged := judgeEarly lib s draws.early pkt
  (judged.2.2.overrule draws.fair judged.1, judged.2)

def countDrop (s : REDQueue) (pkt : Packet) : REDQueue :=
  if pkt.ptype ≠ ptAck then { s with dropCntPers := s.dropCntPers + 1 } else s

/-- The part of `enque` that stores and drops. `none` is a `remove` that finds no packet. -/
def settle (s : REDQueue) (r : ℕ) (pkt : Packet) : Droptype → Option (REDQueue × Output)
  | .unforced =>
    if s.deDrop then some (s, { Output.quiet with edropped := [pkt] })
    else some (s.countDrop pkt, { Output.quiet with dropped := [pkt] })
  | .forced => do
    let s := { s with q := s.q ++ [pkt] }
    let out ← s.pickPacketToDrop r
    let s := { s with q := s.q.erase out }
    let s := s.countDrop out
    let s := if s.ns1Compat then s else { s with edv.count := 0, edv.countBytes := 0 }
    return (s, { Output.quiet with dropped := [out] })
  | .none => some ({ s with q := s.q ++ [pkt] }, Output.quiet)

def enque (lib : Libm) (s : REDQueue) (now : ℚ) (draws : Draws) (pkt : Packet) : Option (REDQueue × Output) :=
  let judged := judge lib s now draws pkt
  judged.2.2.settle draws.victim judged.2.1 judged.1

def putDroprate (s : REDQueue) : ℚ × REDQueue :=
  (if s.pktcntPersLp ≠ 0 then s.dropCntPers / s.pktcntPersLp else 0, { s with dropCntPers := 0, pktcntPersLp := 0 })

def putThroughputBit (s : REDQueue) : ℚ × REDQueue :=
  (if s.pktcntPersTp ≠ 0 then s.tpCntPers / s.pertime else 0, { s with tpCntPers := 0, pktcntPersTp := 0 })

def putArrival (s : REDQueue) : ℕ × REDQueue := (s.pktcntPers, { s with pktcntPers := 0 })

/-- The command that reports the interval. -/
def report (s : REDQueue) : REDQueue × Report :=
  let droprate := s.putDroprate
  let throughput := droprate.2.putThroughputBit
  let arrivals := throughput.2.putArrival
  (arrivals.2, ⟨droprate.1, throughput.1, arrivals.1⟩)

inductive Input
  | enque (now : ℚ) (draws : Draws) (pkt : Packet)
  | deque (now : ℚ)
  | reset (now : ℚ)
  | report
deriving DecidableEq

def Input.arrivals : Input → List Packet
  | .enque _ _ pkt => [pkt]
  | _ => []

def step (lib : Libm) (s : REDQueue) : Input → Option (REDQueue × Output)
  | .enque now draws pkt => enque lib s now draws pkt
  | .deque now => some ((s.deque now).1, { Output.quiet with returned := (s.deque now).2 })
  | .reset now => some ((reset lib s now).1, { Output.quiet with dropped := (reset lib s now).2 })
  | .report => some (s.report.1, { Output.quiet with report := some s.report.2 })

def machine (lib : Libm) : Machine REDQueue Input Output := ⟨step lib⟩

/-- A state that a run reaches from a reset. -/
def Reachable (lib : Libm) (s : REDQueue) : Prop := ∃ first now calls outs, (machine lib).run (reset lib first now).1 calls = some (s, outs)

/-- A C library of which only these values are used: powers with a whole exponent, and the exponential of 0. -/
def plainLibm : Libm := ⟨fun x y => x ^ y.num, fun _ => 1⟩

/-- A queue in packets with these thresholds. -/
def packets (thresh maxthresh : ℚ) : REDQueue :=
  { make .between 0 0 with
    qib := false, edp.bytes := false, edp.qW := 2 / 1000, edp.thMinPkts := thresh, edp.thMaxPkts := maxthresh }

end REDQueue

end Ns2
