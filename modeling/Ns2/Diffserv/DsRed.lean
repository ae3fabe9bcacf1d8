import Mathlib.Algebra.Order.Floor.Ring
import Mathlib.Data.List.Induction
import Mathlib.Data.Rat.Floor
import Ns2.Library.Machine

namespace Ns2

/-- What the router reads of a packet. -/
structure DsPacket where
  codePt : ℤ
  size : ℕ
  ect : Bool
deriving DecidableEq

inductive MredMode
  | rioC
  | rioD
  | wred
  | dropTail
deriving DecidableEq

/-- `PKT_ENQUEUED` and the others. -/
inductive Verdict
  | enqueued
  | dropped
  | edropped
  | marked
deriving DecidableEq

/-- `qParam`, with the early drop parameters and variables that are used of `edp_` and `edv_`. -/
structure QParam where
  thMin : ℤ
  thMax : ℤ
  maxPInv : ℚ
  qW : ℚ
  ptc : ℚ
  vAve : ℚ
  vProb : ℚ
  count : ℤ
  qlen : ℤ
  idletime : ℚ
  idle : Bool

/-- One physical queue, with the packets of `q_` from its head on. -/
structure RedQueue where
  numPrec : ℕ
  qlim : ℕ
  mredMode : MredMode
  queue : List DsPacket
  qParam : ℕ → QParam

/-- Towards zero, as a conversion to `int` does. -/
def RedQueue.truncate (x : ℚ) : ℤ := if 0 ≤ x then ⌊x⌋ else ⌈x⌉

namespace RedQueue

def MAX_PREC : ℕ := 3

/-- Changes the parameters of one virtual queue. -/
def modify (s : RedQueue) (prec : ℕ) (f : QParam → QParam) : RedQueue :=
  { s with qParam := Function.update s.qParam prec (f (s.qParam prec)) }

/-- `config`: the number of packets since the last drop and the last probability stay what they are. -/
def config (s : RedQueue) (prec : ℕ) (thMin thMax : ℤ) (maxP : ℚ) (qW : Option ℚ) (now : ℚ) : RedQueue :=
  s.modify prec fun p =>
    { p with thMin := thMin, thMax := thMax, maxPInv := 1 / maxP, qW := qW.getD (2 / 1000), vAve := 0, qlen := 0, idle := true, idletime := now }

def updateVREDLen (s : RedQueue) (prec : ℕ) : RedQueue := s.modify prec fun p => { p with qlen := p.qlen - 1 }

def updateIdleFlag (s : RedQueue) (prec : ℕ) : RedQueue :=
  match s.mredMode with
  | .rioC => { s with qParam := fun i => if prec ≤ i ∧ i < s.numPrec then { s.qParam i with idle := false } else s.qParam i }
  | .rioD => s.modify prec fun p => { p with idle := false }
  | _ => s.modify 0 fun p => { p with idle := false }

/-- The loop over the virtual queues that have become idle with one of them. -/
def setIdle (now : ℚ) : ℕ → ℕ → RedQueue → RedQueue
  | 0, _, s => s
  | n + 1, i, s => if (s.qParam i).qlen = 0 then setIdle now n (i + 1) (s.modify i fun p => { p with idle := true, idletime := now }) else s

def updateREDStateVar (s : RedQueue) (now : ℚ) (prec : ℕ) : RedQueue :=
  if (s.qParam prec).qlen = 0 then
    match s.mredMode with
    | .rioC => if ∀ i < prec, (s.qParam i).qlen = 0 then setIdle now (s.numPrec - prec) prec s else s
    | .rioD => s.modify prec fun p => { p with idle := true, idletime := now }
    | .wred => s.modify 0 fun p => { p with idle := true, idletime := now }
    | .dropTail => s
  else s

/-- The new average of a virtual queue, after `m` intervals. -/
def average (s : RedQueue) (prec : ℕ) (m : ℤ) : ℚ :=
  let f := (s.qParam prec).vAve * (1 - (s.qParam prec).qW) ^ (max 1 m).toNat
  match s.mredMode with
  | .rioC => f + ((List.range (prec + 1)).map fun i => (s.qParam i).qW * (s.qParam i).qlen).sum
  | .rioD => f + (s.qParam prec).qW * (s.qParam prec).qlen
  | _ => f + (s.qParam prec).qW * s.queue.length

def calcAvg (s : RedQueue) (prec : ℕ) (m : ℤ) : RedQueue :=
  let f := s.average prec m
  match s.mredMode with
  | .wred => { s with qParam := fun i => if i < s.numPrec then { s.qParam i with vAve := f } else s.qParam i }
  | _ => s.modify prec fun p => { p with vAve := f }

/-- The average is brought up to now, with the packets that could have been sent while the queue was idle. -/
def age (now : ℚ) (s : RedQueue) (prec : ℕ) : RedQueue :=
  let p := s.qParam prec
  s.calcAvg prec ((if p.idle then truncate (p.ptc * (now - p.idletime)) else 0) + 1)

/-- The part of `enque` that determines the averages. -/
def findAvg (s : RedQueue) (now : ℚ) (prec : ℕ) : RedQueue :=
  match s.mredMode with
  | .dropTail => s
  | .rioC => (List.range' prec (s.numPrec - prec)).foldl (age now) s
  | .rioD => s.age now prec
  | .wred => s.age now 0

/-- A packet is put into the physical queue and into a virtual one. -/
def store (s : RedQueue) (pkt : DsPacket) (prec : ℕ) : RedQueue :=
  { s.modify prec fun p => { p with qlen := p.qlen + 1 } with queue := s.queue ++ [pkt] }

/-- The end of `enque` for a packet that is not dropped. With ECN it has been stored before. -/
def accept (s : RedQueue) (pkt : DsPacket) (prec : ℕ) (ecn : Bool) : RedQueue :=
  if ecn then s.updateIdleFlag prec else (s.store pkt prec).updateIdleFlag prec

/-- The end of `enque` for a packet that is dropped, or only marked with ECN. -/
def reject (s : RedQueue) (prec : ℕ) (ecn : Bool) (verdict : Verdict) : RedQueue × Verdict :=
  if ecn then (s.updateIdleFlag prec, .marked) else (s, verdict)

/-- Two virtual queues with the thresholds 10 and 20, in zeroed memory. -/
def sample (mode : MredMode) : RedQueue :=
  let memory : RedQueue := ⟨2, 50, mode, [], fun _ => ⟨0, 0, 0, 0, 1, 0, 0, 0, 0, 0, false⟩⟩
  (memory.config 0 10 20 (1 / 10) none 0).config 1 10 20 (1 / 10) none 0

end RedQueue

namespace QParam

/-- `pb`, from the average. -/
def baseProb (p : QParam) : ℚ := 1 / p.maxPInv * (p.vAve - p.thMin) / (p.thMax - p.thMin)

/-- `pa`. -/
def dropProb (p : QParam) : ℚ := p.vProb / (1 - p.count * p.vProb)

/-- Whether `u <= pa`: a division by zero gives infinity. -/
def dropsEarly (p : QParam) (u : ℚ) : Prop := 1 - p.count * p.vProb = 0 ∨ u ≤ p.dropProb

instance (p : QParam) (u : ℚ) : Decidable (p.dropsEarly u) := inferInstanceAs (Decidable (_ ∨ _))

/-- The average is between the thresholds. -/
def InBand (p : QParam) : Prop := p.thMin < p.vAve ∧ p.vAve ≤ p.thMax

instance (p : QParam) : Decidable p.InBand := inferInstanceAs (Decidable (_ ∧ _))

/-- An arrival in the band is counted. -/
def counted (p : QParam) : QParam := { p with count := p.count + 1, vProb := p.baseProb }

end QParam

namespace RedQueue

/-- The part of `enque` behind the averages. -/
def judge (s : RedQueue) (u : ℚ) (pkt : DsPacket) (prec : ℕ) (ecn : Bool) : RedQueue × Verdict :=
  let p := s.qParam prec
  if p.vAve > p.thMin then
    if p.vAve ≤ p.thMax then
      if p.counted.dropsEarly u then (s.modify prec fun p => { p.counted with count := 0 }).reject prec ecn .edropped
      else ((s.modify prec QParam.counted).accept pkt prec ecn, .enqueued)
    else (s.modify prec fun p => { p with count := 0 }).reject prec ecn .dropped
  else ((s.modify prec fun p => { p with count := -1 }).accept pkt prec ecn, .enqueued)

/-- `u` is what `Random::uniform(0.0, 1.0)` gives. -/
def enque (s : RedQueue) (now u : ℚ) (pkt : DsPacket) (prec : ℕ) (ecn : Bool) : RedQueue × Verdict :=
  if (s.queue.length : ℤ) > s.qlim - 1 then (s, .dropped)
  else if s.mredMode = .dropTail ∧ (s.qParam prec).qlen ≥ (s.qParam prec).thMin then (s, .dropped)
  else
    let s := s.findAvg now prec
    let s := if ecn then s.store pkt prec else s
    s.judge u pkt prec ecn

/-- What is done to a physical queue when the packet at its head leaves. -/
def deque (s : RedQueue) (now : ℚ) (prec : ℕ) : RedQueue :=
  ({ s with queue := s.queue.tail }.updateVREDLen prec).updateREDStateVar now prec

end RedQueue

inductive SchedMode
  | RR
  | WRR
  | WIRR
  | PRI
deriving DecidableEq

structure PhbParam where
  codePt : ℤ
  queue : ℕ
  prec : ℕ
deriving DecidableEq

structure DsREDQueue where
  redq : ℕ → RedQueue
  qToDq : ℕ
  numQueues : ℕ
  phb : List PhbParam
  ecn : Bool
  schedMode : SchedMode
  queueWeight : ℕ → ℤ
  queueMaxRate : ℕ → ℚ
  queueAvgRate : ℕ → ℚ
  queueArrTime : ℕ → ℚ
  pktcount : ℕ → ℕ
  wirrTemp : ℕ → ℤ
  wirrqDone : ℕ → Bool
  queuesDone : ℕ
  /-- What has been given to `drop` and to `edrop`. -/
  drops : List DsPacket
  edrops : List DsPacket

/-- The calls of the router, with the clock. -/
inductive DsCall
  | enque (now u : ℚ) (pkt : DsPacket)
  | deque (now : ℚ)

namespace DsREDQueue

def MAX_QUEUES : ℕ := 8

/-- `getRealLength` of a physical queue. -/
def length (s : DsREDQueue) (q : ℕ) : ℕ := (s.redq q).queue.length

/-- `none` where the assertion fails. -/
def lookupPHBTable (s : DsREDQueue) (codePt : ℤ) : Option (ℕ × ℕ) := (s.phb.find? fun e => e.codePt = codePt).map fun e => (e.queue, e.prec)

def applyTSWMeter (now : ℚ) (size : ℕ) (s : DsREDQueue) (q : ℕ) : DsREDQueue :=
  { s with
    queueAvgRate := Function.update s.queueAvgRate q ((s.queueAvgRate q + size) / (now - s.queueArrTime q + 1))
    queueArrTime := Function.update s.queueArrTime q now }

/-- The next queue in line. -/
def next (s : DsREDQueue) (q : ℕ) : ℕ := (q + 1) % s.numQueues

/-- From a queue on, over the empty ones, for some turns. -/
def skipEmpty (s : DsREDQueue) : ℕ → ℕ → ℕ
  | 0, q => q
  | n + 1, q => if s.length q = 0 then s.skipEmpty n (s.next q) else q

def selectRR (s : DsREDQueue) : DsREDQueue := { s with qToDq := s.skipEmpty s.numQueues (s.next s.qToDq) }

/-- The next queue in line, with its share. -/
def nextWRR (s : DsREDQueue) : DsREDQueue :=
  { s with
    qToDq := s.next s.qToDq
    wirrTemp := Function.update s.wirrTemp (s.next s.qToDq) (s.queueWeight (s.next s.qToDq) - 1) }

def skipWRR : ℕ → DsREDQueue → DsREDQueue
  | 0, s => s
  | n + 1, s =>
    if s.length s.qToDq = 0 then skipWRR n { s with wirrTemp := Function.update s.wirrTemp s.qToDq 0 }.nextWRR else s

def selectWRR (s : DsREDQueue) : DsREDQueue :=
  let s :=
    if s.wirrTemp s.qToDq ≤ 0 then s.nextWRR
    else { s with wirrTemp := Function.update s.wirrTemp s.qToDq (s.wirrTemp s.qToDq - 1) }
  skipWRR s.numQueues s

/-- A queue has had its share. -/
def setDone (s : DsREDQueue) (q : ℕ) : DsREDQueue :=
  { s with queuesDone := s.queuesDone + 1, wirrqDone := Function.update s.wirrqDone q true }

def skipWIRR : ℕ → DsREDQueue → DsREDQueue
  | 0, s => s
  | n + 1, s =>
    if s.length s.qToDq = 0 ∨ s.wirrqDone s.qToDq then
      let s := if s.wirrqDone s.qToDq then s else s.setDone s.qToDq
      skipWIRR n { s with qToDq := s.next s.qToDq }
    else s

/-- A new round, when all queues are done. -/
def refill (s : DsREDQueue) : DsREDQueue :=
  if s.queuesDone ≥ s.numQueues then
    { s with
      queuesDone := 0
      wirrTemp := fun i => if i < s.numQueues then s.queueWeight i else s.wirrTemp i
      wirrqDone := fun i => if i < s.numQueues then false else s.wirrqDone i }
  else s

/-- A queue takes one of its share. -/
def takeShare (s : DsREDQueue) : DsREDQueue :=
  let s := if s.wirrTemp s.qToDq = 1 then s.setDone s.qToDq else s
  { s with wirrTemp := Function.update s.wirrTemp s.qToDq (s.wirrTemp s.qToDq - 1) }

def selectWIRR (s : DsREDQueue) : DsREDQueue := (skipWIRR s.numQueues { s with qToDq := s.next s.qToDq }).takeShare.refill

/-- The queue is empty, or its average rate is beyond its limit. -/
def passedOver (s : DsREDQueue) (q : ℕ) : Prop := s.length q = 0 ∨ s.queueMaxRate q ≠ 0 ∧ s.queueAvgRate q > s.queueMaxRate q

instance (s : DsREDQueue) (q : ℕ) : Decidable (s.passedOver q) := inferInstanceAs (Decidable (_ ∨ _))

def selectPRI (s : DsREDQueue) : DsREDQueue :=
  match (List.range s.numQueues).find? fun i => ¬s.passedOver i with
  | some i => { s with qToDq := i }
  | none => { s with qToDq := s.skipEmpty s.numQueues 0 }

def selectQueueToDeque (s : DsREDQueue) : DsREDQueue :=
  match s.schedMode with
  | .RR => s.selectRR
  | .WRR => s.selectWRR
  | .WIRR => s.selectWIRR
  | .PRI => s.selectPRI

/-- The packet of a physical queue, with the verdict on it. -/
def setQueue (s : DsREDQueue) (q : ℕ) (r : RedQueue) : DsREDQueue := { s with redq := Function.update s.redq q r }

def enque (s : DsREDQueue) (now u : ℚ) (pkt : DsPacket) : Option (DsREDQueue × Verdict) := do
  let (q, prec) ← s.lookupPHBTable pkt.codePt
  let (r, verdict) := (s.redq q).enque now u pkt prec (s.ecn && pkt.ect)
  let s := s.setQueue q r
  return match verdict with
    | .dropped => ({ s with drops := s.drops ++ [pkt] }, verdict)
    | .edropped => ({ s with edrops := s.edrops ++ [pkt] }, verdict)
    | _ => (s, verdict)

/-- The rates that are measured for the priorities. -/
def meter (s : DsREDQueue) (now : ℚ) (q size : ℕ) : DsREDQueue :=
  if s.schedMode = .PRI then
    (List.range s.numQueues).foldl (fun s i => if s.queueMaxRate i ≠ 0 then s.applyTSWMeter now (if i = q then size else 0) i else s) s
  else s

/-- The packet at the head of a physical queue leaves. -/
def sendFrom (s : DsREDQueue) (now : ℚ) (q : ℕ) (pkt : DsPacket) : Option DsREDQueue := do
  let s := { s with pktcount := Function.update s.pktcount q (s.pktcount q + 1) }.meter now q pkt.size
  let (_, prec) ← s.lookupPHBTable pkt.codePt
  return s.setQueue q ((s.redq q).deque now prec)

def deque (s : DsREDQueue) (now : ℚ) : Option (DsREDQueue × Option DsPacket) :=
  let s := s.selectQueueToDeque
  if s.qToDq < s.numQueues then
    match (s.redq s.qToDq).queue with
    | [] => some (s, none)
    | pkt :: _ => (s.sendFrom now s.qToDq pkt).map fun s => (s, some pkt)
  else some (s, none)

/-- The answer is the verdict on the packet, or the packet that is sent. -/
def component : Machine DsREDQueue DsCall (Verdict ⊕ Option DsPacket) where
  step s
    | .enque now u pkt => (s.enque now u pkt).map fun (s, verdict) => (s, .inl verdict)
    | .deque now => (s.deque now).map fun (s, pkt) => (s, .inr pkt)

/-- The code points 10 and 11 share the first queue, and 20 goes to the second one. -/
def sample (mode : MredMode) (schedMode : SchedMode) : DsREDQueue where
  redq _ := .sample mode
  qToDq := 0
  numQueues := 2
  phb := [⟨10, 0, 0⟩, ⟨11, 0, 1⟩, ⟨20, 1, 0⟩]
  ecn := false
  schedMode := schedMode
  queueWeight _ := 1
  queueMaxRate _ := 0
  queueAvgRate _ := 0
  queueArrTime _ := 0
  pktcount _ := 0
  wirrTemp _ := 0
  wirrqDone _ := false
  queuesDone := MAX_QUEUES
  drops := []
  edrops := []

/-- A packet of 1000 bytes comes, or one is sent. -/
def arrive (codePt : ℤ) : DsCall := .enque 0 1 ⟨codePt, 1000, false⟩

/-- Only the state of the schedulers has changed. -/
structure Scheduled (s t : DsREDQueue) : Prop where
  redq : t.redq = s.redq
  numQueues : t.numQueues = s.numQueues
  phb : t.phb = s.phb
  schedMode : t.schedMode = s.schedMode
  queueWeight : t.queueWeight = s.queueWeight
  pktcount : t.pktcount = s.pktcount

variable {s t mid : DsREDQueue} {now u : ℚ} {pkt : DsPacket}

theorem Scheduled.refl (s : DsREDQueue) : Scheduled s s := ⟨rfl, rfl, rfl, rfl, rfl, rfl⟩

theorem Scheduled.after (second : Scheduled mid t) (first : Scheduled s mid) : Scheduled s t where
  redq := second.redq.trans first.redq
  numQueues := second.numQueues.trans first.numQueues
  phb := second.phb.trans first.phb
  schedMode := second.schedMode.trans first.schedMode
  queueWeight := second.queueWeight.trans first.queueWeight
  pktcount := second.pktcount.trans first.pktcount

theorem scheduled_skipWRR (n : ℕ) (s : DsREDQueue) : Scheduled s (skipWRR n s) := by
  induction n generalizing s with
  | zero => exact .refl s
  | succ n ih =>
    rw [skipWRR]
    split_ifs
    · exact (ih _).after ⟨rfl, rfl, rfl, rfl, rfl, rfl⟩
    · exact .refl s

theorem scheduled_selectWRR (s : DsREDQueue) : Scheduled s s.selectWRR := by
  unfold selectWRR
  dsimp only
  split_ifs
  · exact (scheduled_skipWRR _ _).after ⟨rfl, rfl, rfl, rfl, rfl, rfl⟩
  · exact (scheduled_skipWRR _ _).after ⟨rfl, rfl, rfl, rfl, rfl, rfl⟩

theorem scheduled_skipWIRR (n : ℕ) (s : DsREDQueue) : Scheduled s (skipWIRR n s) := by
  induction n generalizing s with
  | zero => exact .refl s
  | succ n ih =>
    rw [skipWIRR]
    split_ifs
    · exact (ih _).after ⟨rfl, rfl, rfl, rfl, rfl, rfl⟩
    · exact (ih _).after ⟨rfl, rfl, rfl, rfl, rfl, rfl⟩
    · exact .refl s

theorem scheduled_takeShare (s : DsREDQueue) : Scheduled s s.takeShare := by
  unfold takeShare
  dsimp only
  split_ifs <;> exact ⟨rfl, rfl, rfl, rfl, rfl, rfl⟩

theorem scheduled_refill (s : DsREDQueue) : Scheduled s s.refill := by
  unfold refill
  split_ifs <;> exact ⟨rfl, rfl, rfl, rfl, rfl, rfl⟩

theorem scheduled_select (s : DsREDQueue) : Scheduled s s.selectQueueToDeque := by
  unfold selectQueueToDeque
  split
  · exact ⟨rfl, rfl, rfl, rfl, rfl, rfl⟩
  · exact scheduled_selectWRR s
  · have skipped := scheduled_skipWIRR s.numQueues { s with qToDq := s.next s.qToDq }
    exact (scheduled_refill _).after ((scheduled_takeShare _).after (skipped.after ⟨rfl, rfl, rfl, rfl, rfl, rfl⟩))
  · unfold selectPRI
    split <;> exact ⟨rfl, rfl, rfl, rfl, rfl, rfl⟩

theorem scheduled_meter (s : DsREDQueue) (now : ℚ) (q size : ℕ) : Scheduled s (s.meter now q size) ∧ (s.meter now q size).qToDq = s.qToDq ∧
    (s.meter now q size).wirrTemp = s.wirrTemp ∧ (s.meter now q size).wirrqDone = s.wirrqDone ∧
    (s.meter now q size).queuesDone = s.queuesDone ∧ (s.meter now q size).drops = s.drops ∧ (s.meter now q size).edrops = s.edrops := by
  unfold meter
  split_ifs
  · induction List.range s.numQueues using List.reverseRecOn with
    | nil => exact ⟨.refl s, rfl, rfl, rfl, rfl, rfl, rfl⟩
    | append_singleton l i ih =>
      obtain ⟨same, rest⟩ := ih
      rw [List.foldl_append, List.foldl_cons, List.foldl_nil]
      split_ifs
      · exact ⟨⟨same.redq, same.numQueues, same.phb, same.schedMode, same.queueWeight, same.pktcount⟩, rest⟩
      · exact ⟨⟨same.redq, same.numQueues, same.phb, same.schedMode, same.queueWeight, same.pktcount⟩, rest⟩
      · exact ⟨same, rest⟩
  · exact ⟨.refl s, rfl, rfl, rfl, rfl, rfl, rfl⟩

/-- A packet has been sent from the queue that has been selected. -/
structure Sent (s t : DsREDQueue) (now : ℚ) (pkt : DsPacket) : Prop where
  inUse : s.qToDq < s.numQueues
  front : (s.redq s.qToDq).queue.head? = some pkt
  redq : ∃ q prec, s.lookupPHBTable pkt.codePt = some (q, prec) ∧
    t.redq = Function.update s.redq s.qToDq ((s.redq s.qToDq).deque now prec)
  pktcount : t.pktcount = Function.update s.pktcount s.qToDq (s.pktcount s.qToDq + 1)
  kept : t.numQueues = s.numQueues ∧ t.phb = s.phb ∧ t.schedMode = s.schedMode ∧ t.queueWeight = s.queueWeight ∧ t.drops = s.drops ∧
    t.edrops = s.edrops
  scheduler : t.qToDq = s.qToDq ∧ t.wirrTemp = s.wirrTemp ∧ t.wirrqDone = s.wirrqDone ∧ t.queuesDone = s.queuesDone

/-- `deque` selects a queue, and sends the packet at its head if there is one. -/
theorem deque_cases {answer : Option DsPacket} (taken : s.deque now = some (t, answer)) :
    (answer = none ∧ t = s.selectQueueToDeque ∧ (t.qToDq < t.numQueues → t.length t.qToDq = 0)) ∨
      ∃ pkt, answer = some pkt ∧ Sent s.selectQueueToDeque t now pkt := by
  unfold deque at taken
  dsimp only at taken
  generalize s.selectQueueToDeque = mid at taken ⊢
  split_ifs at taken with inUse
  · split at taken
    · rename_i empty
      cases taken
      exact Or.inl ⟨rfl, rfl, fun _ => List.length_eq_zero_iff.mpr empty⟩
    · rename_i pkt rest front
      obtain ⟨t', sent, same⟩ := Option.map_eq_some_iff.mp taken
      cases same
      obtain ⟨⟨q, prec⟩, looked, done⟩ := Option.bind_eq_some_iff.mp sent
      cases done
      obtain ⟨same, qToDq, temp, done, count, drops, edrops⟩ :=
        scheduled_meter { mid with pktcount := Function.update mid.pktcount mid.qToDq (mid.pktcount mid.qToDq + 1) } now mid.qToDq pkt.size
      have known : mid.lookupPHBTable pkt.codePt = some (q, prec) := by
        rw [lookupPHBTable, same.phb] at looked
        exact looked
      refine Or.inr ⟨pkt, rfl, inUse, by rw [front]; rfl, ⟨q, prec, known, ?_⟩, same.pktcount, ?_, qToDq, temp, done, count⟩
      · exact congrArg (fun redq => Function.update redq mid.qToDq ((redq mid.qToDq).deque now prec)) same.redq
      · exact ⟨same.numQueues, same.phb, same.schedMode, same.queueWeight, drops, edrops⟩
  · cases taken
    exact Or.inl ⟨rfl, rfl, fun low => absurd low inUse⟩

end DsREDQueue

end Ns2
