import Ns2.Queue.QueueProtocol
import Ns2.Queue.TrafficLevel

namespace Ns2

universe u

/-- The members that the three queues of the authors share. -/
structure Myred (α : Type u) where
  q : List α
  avg : ℚ
  avgL : ℚ
  wq : ℚ
  minth : ℤ
  maxth : ℤ
  pd : ℚ
  maxp : ℚ
  pktcntPersLp : ℕ
  pktcntPersTp : ℕ
  pktcnt : ℕ
  dpktcnt : ℕ
  opktcnt : ℕ
  count : ℕ
  pertime : ℚ

structure Ared (α : Type u) extends Myred α where
  mintarget : ℚ
  maxtarget : ℚ
  alpha : ℚ
  beta : ℚ

structure Pared (α : Type u) extends Myred α where
  mintarget : ℚ
  maxtarget : ℚ
  alpha : ℚ
  beta : ℚ
  pktcntPers : ℕ

/-- What the commands write: the number of packets for `totalpkt`, and for `output` the queue length, its average, the
loss rate and the throughput. -/
inductive MyredAnswer
  | none
  | totalpkt (pktcnt : ℕ)
  | output (ql : ℕ) (avg lossRate throughput : ℚ)
deriving DecidableEq

inductive MyredCommand
  | totalpkt
  | getAvg
  | output
deriving DecidableEq

variable {α : Type u}

namespace Myred

/-- The constructor; `pktcnt` is not set by it, and `maxp` is 0.1 in the source. -/
def make (pktcnt : ℕ) (maxp pertime : ℚ) : Myred α where
  q := []
  avg := 0
  avgL := 0
  wq := 2 / 1000
  minth := 5
  maxth := 15
  pd := 0
  maxp := maxp
  pktcntPersLp := 0
  pktcntPersTp := 0
  pktcnt := pktcnt
  dpktcnt := 0
  opktcnt := 0
  count := 0
  pertime := pertime

/-- The arrival is counted. -/
def countArrival (s : Myred α) : Myred α := { s with pktcntPersLp := s.pktcntPersLp + 1, pktcntPersTp := s.pktcntPersTp + 1 }

def store (s : Myred α) (pkt : α) : Myred α × List α := ({ s with q := s.q ++ [pkt], pktcnt := s.pktcnt + 1 }, [])

def drop (s : Myred α) (pkt : α) : Myred α × List α := ({ s with dpktcnt := s.dpktcnt + 1 }, [pkt])

/-- `rand` is the random number, of which the last two digits are used. -/
def enque (s : Myred α) (rand : ℕ) (pkt : α) : Myred α × List α :=
  let s := s.countArrival
  if s.q.length ≥ 35 then s.drop pkt
  else if s.avg < s.minth then Myred.store { s with pd := 0 } pkt
  else if s.avg ≥ s.minth ∧ s.avg < s.maxth then
    let s := { s with pd := (s.avg - s.minth) / (s.maxth - s.minth) * s.maxp }
    let a := rand % 100
    if (a : ℚ) ≤ s.pd * 100 then s.drop pkt else s.store pkt
  else if s.avg ≥ s.maxth then Myred.drop { s with pd := 1 } pkt
  else (s, [])

def deque (s : Myred α) : Myred α × Option α := ({ s with opktcnt := s.opktcnt + 1, q := s.q.tail }, s.q.head?)

def getAvg (s : Myred α) : Myred α :=
  let avg := (1 - s.wq) * s.avgL + s.wq * s.q.length
  { s with avg := avg, avgL := avg }

def totalpkt (s : Myred α) : Myred α × MyredAnswer := ({ s with count := s.count + 1, pktcnt := 0 }, .totalpkt s.pktcnt)

def putLp (s : Myred α) : Myred α × ℚ :=
  ({ s with dpktcnt := 0, pktcntPersLp := 0 }, if s.pktcntPersLp ≠ 0 then s.dpktcnt / s.pktcntPersLp else 0)

def putTp (s : Myred α) : Myred α × ℚ :=
  ({ s with opktcnt := 0, pktcntPersTp := 0 }, if s.pktcntPersTp ≠ 0 then s.opktcnt / s.pertime else 0)

/-- The command `output`: `putQl`, `putAvg`, `putLp` and `putTp`. -/
def output (s : Myred α) : Myred α × MyredAnswer :=
  let lossRate := s.putLp
  let throughput := lossRate.1.putTp
  (throughput.1, .output s.q.length s.avg lossRate.2 throughput.2)

def command (s : Myred α) : MyredCommand → Myred α × MyredAnswer
  | .totalpkt => s.totalpkt
  | .getAvg => (s.getAvg, .none)
  | .output => s.output

/-- An arrival is a random number and a packet. -/
def discipline : Discipline (Myred α) (ℕ × α) MyredCommand MyredAnswer α := ⟨fun s arrival => s.enque arrival.1 arrival.2, deque, command⟩

end Myred

namespace Ared

def make (pktcnt : ℕ) (maxp pertime : ℚ) : Ared α where
  toMyred := Myred.make pktcnt maxp pertime
  mintarget := 5 + 4 / 10 * (15 - 5)
  maxtarget := 5 + 6 / 10 * (15 - 5)
  alpha := if maxp / 4 ≤ 1 / 100 then maxp / 4 else 1 / 100
  beta := 9 / 10

def enque (s : Ared α) (rand : ℕ) (pkt : α) : Ared α × List α :=
  let enqued := s.toMyred.enque rand pkt
  ({ s with toMyred := enqued.1 }, enqued.2)

def deque (s : Ared α) : Ared α × Option α :=
  let dequed := s.toMyred.deque
  ({ s with toMyred := dequed.1 }, dequed.2)

def getAvg (s : Ared α) : Ared α :=
  let s := { s with toMyred := s.toMyred.getAvg }
  let s :=
    if s.avg > s.maxtarget ∧ s.maxp ≤ 1 / 2 then { s with maxp := s.maxp + s.alpha }
    else if s.avg < s.mintarget ∧ s.maxp ≥ 1 / 100 then { s with maxp := s.maxp * s.beta }
    else s
  { s with alpha := if s.maxp / 4 ≤ 1 / 100 then s.maxp / 4 else 1 / 100 }

def command (s : Ared α) : MyredCommand → Ared α × MyredAnswer
  | .totalpkt => ({ s with toMyred := s.toMyred.totalpkt.1 }, s.toMyred.totalpkt.2)
  | .getAvg => (s.getAvg, .none)
  | .output => ({ s with toMyred := s.toMyred.output.1 }, s.toMyred.output.2)

def discipline : Discipline (Ared α) (ℕ × α) MyredCommand MyredAnswer α := ⟨fun s arrival => s.enque arrival.1 arrival.2, deque, command⟩

end Ared

namespace Pared

/-- The mean of the packets of an interval. -/
def E1 : ℚ := 237728180 / 100000

/-- Their deviation. -/
def D1 : ℚ := 30200101 / 100000

def make (pktcnt : ℕ) (maxp pertime : ℚ) : Pared α where
  toMyred := Myred.make pktcnt maxp pertime
  mintarget := 5 + 4 / 10 * (15 - 5)
  maxtarget := 5 + 6 / 10 * (15 - 5)
  alpha := if maxp / 4 ≤ 1 / 100 then maxp / 4 else 1 / 100
  beta := 9 / 10
  pktcntPers := 0

def enque (s : Pared α) (rand : ℕ) (pkt : α) : Pared α × List α :=
  let enqued := s.toMyred.enque rand pkt
  ({ s with toMyred := enqued.1, pktcntPers := s.pktcntPers + 1 }, enqued.2)

def deque (s : Pared α) : Pared α × Option α :=
  let dequed := s.toMyred.deque
  ({ s with toMyred := dequed.1 }, dequed.2)

def getLevel (s : Pared α) : ℕ := trafficLevel E1 D1 s.pktcntPers

def getAvg (s : Pared α) : Pared α :=
  let s := { s with toMyred := s.toMyred.getAvg }
  let level := s.getLevel
  if s.avg > s.maxtarget ∧ s.maxp < 1 / 2 then
    let s := { s with
      alpha := if level ≥ 5 then levelAlpha s.maxp level else if s.maxp / 4 ≤ 1 / 100 then s.maxp / 4 else 1 / 100 }
    { s with maxp := s.maxp + s.alpha }
  else if s.avg < s.mintarget ∧ s.maxp > 1 / 100 then
    let s := { s with beta := levelBeta level }
    { s with maxp := s.maxp * s.beta }
  else s

def command (s : Pared α) : MyredCommand → Pared α × MyredAnswer
  | .totalpkt => ({ s with toMyred := s.toMyred.totalpkt.1 }, s.toMyred.totalpkt.2)
  | .getAvg => (s.getAvg, .none)
  | .output => ({ s with toMyred := s.toMyred.output.1 }, s.toMyred.output.2)

def discipline : Discipline (Pared α) (ℕ × α) MyredCommand MyredAnswer α := ⟨fun s arrival => s.enque arrival.1 arrival.2, deque, command⟩

end Pared

end Ns2
