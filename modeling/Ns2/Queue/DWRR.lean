import Ns2.Library.BubbleSort
import Ns2.Queue.FlowTable
import Mathlib.Data.PNat.Basic

namespace Ns2

structure PacketDWRR where
  queue : PacketQueue
  pkts : ℤ
  bcount : ℤ
  deficitCounter : ℤ
  site : ℕ
  turn : Bool
  weight : ℤ
deriving DecidableEq

/-- `links` are the `prev` and `next` of the buckets. -/
structure DWRR where
  buckets : ℕ+
  blimit : ℕ
  quantum : ℤ
  dwrr : ℕ → PacketDWRR
  links : Links ℕ
  curr : Option ℕ
  bytecnt : ℤ
  pktcnt : ℤ
  flwcnt : ℤ
  weights : List ℤ
  cerprique : ℕ

namespace DWRR

def make (buckets : ℕ+) (blimit : ℕ) : DWRR where
  buckets := buckets
  blimit := blimit
  quantum := 2000
  dwrr := fun _ => ⟨[], 0, 0, 0, 0, false, 0⟩
  links := ⟨id, id⟩
  curr := none
  bytecnt := 0
  pktcnt := 0
  flwcnt := 0
  weights := []
  cerprique := 0

/-- The weights in ring order from the head on, then sorted. -/
def rearr (s : DWRR) : DWRR :=
  match s.curr with
  | none => s
  | some head =>
    let weights := (s.links.follow s.flwcnt.toNat head).map fun i => (s.dwrr i).weight
    { s with weights := BubbleSort.sort s.flwcnt.toNat weights, cerprique := 0 }

/-- `none` is a null `curr`, an index outside `weights`, or a walk round the
ring that meets no flow of that weight and never ends. -/
def moveMaxweight (s : DWRR) : Option ℕ := do
  let head ← s.curr
  let weight ← s.weights[s.cerprique]?
  s.links.seek (fun i => (s.dwrr i).weight = weight) s.flwcnt.toNat head

def getMaxflow (s : DWRR) : Option ℕ :=
  s.curr.map fun head => s.links.argmax (fun i => (s.dwrr i).bcount) s.flwcnt.toNat head head

/-- The remainder by which a source address selects its bucket. -/
def index (buckets : ℕ+) (saddr : ℤ) : ℤ := saddr.tmod buckets

def which (buckets : ℕ+) (pkt : Packet) : ℕ := (index buckets pkt.saddr).toNat

/-- A flow that has become active. -/
def activate (s : DWRR) (this : ℕ) (saddr : ℤ) : DWRR :=
  let activated := s.links.activate this s.curr
  let q := { s.dwrr this with deficitCounter := 0, weight := saddr, site := this }
  rearr { s with
    links := activated.1, curr := activated.2, dwrr := Function.update s.dwrr this q, flwcnt := s.flwcnt + 1 }

/-- A flow that has become empty. -/
def idle (s : DWRR) (this head : ℕ) : DWRR :=
  let idled := s.links.idle this head
  rearr { s with links := idled.1, curr := idled.2, flwcnt := s.flwcnt - 1 }

def store (s : DWRR) (this : ℕ) (pkt : Packet) : DWRR :=
  let q := s.dwrr this
  let q := { q with queue := q.queue.enque pkt, pkts := q.pkts + 1, bcount := q.bcount + pkt.size }
  { s with
    dwrr := Function.update s.dwrr this q, pktcnt := s.pktcnt + 1, bytecnt := s.bytecnt + pkt.size }

/-- The head packet of a flow leaves its queue. -/
def take (s : DWRR) (this : ℕ) (pkt : Packet) : DWRR :=
  let q := s.dwrr this
  let q := { q with queue := q.queue.deque.2, pkts := q.pkts - 1, bcount := q.bcount - pkt.size }
  { s with
    dwrr := Function.update s.dwrr this q, pktcnt := s.pktcnt - 1, bytecnt := s.bytecnt - pkt.size }

/-- One turn of the overflow loop of `enque`. -/
def overflow (s : DWRR) : Option (DWRR × Packet) := do
  let head ← s.curr
  let remq ← s.getMaxflow
  let p ← (s.dwrr remq).queue.deque.1
  let s := s.take remq p
  if (s.dwrr remq).pkts = 0 then return (s.idle remq head, p) else return (s, p)

/-- The overflow loop, which drops at most every packet there is. -/
def overflows : ℕ → DWRR → Option (DWRR × List Packet)
  | 0, s => if s.bytecnt > s.blimit then none else some (s, [])
  | n + 1, s =>
    if s.bytecnt > s.blimit then do
      let (s, p) ← s.overflow
      let (s, dropped) ← overflows n s
      return (s, p :: dropped)
    else some (s, [])

/-- A packet is stored, and its flow activated when it is the only one there. -/
def arrive (s : DWRR) (this : ℕ) (pkt : Packet) : DWRR :=
  let s := s.store this pkt
  if (s.dwrr this).pkts = 1 then s.activate this pkt.saddr else s

/-- The answer is the packets dropped. `none` is an access outside `dwrr` or a
null pointer followed. -/
def enque (s : DWRR) (pkt : Packet) : Option (DWRR × List Packet) :=
  if 0 ≤ index s.buckets pkt.saddr then
    let s := s.arrive (which s.buckets pkt) pkt
    s.overflows s.pktcnt.toNat
  else none

/-- The quantum that a flow gets at the start of its turn. -/
def grant (quantum : ℤ) (q : PacketDWRR) : PacketDWRR :=
  if q.turn then q else { q with deficitCounter := q.deficitCounter + q.weight * quantum, turn := true }

def charge (s : DWRR) (this : ℕ) (pkt : Packet) : DWRR :=
  let q := s.dwrr this
  { s with dwrr := Function.update s.dwrr this { q with deficitCounter := q.deficitCounter - pkt.size } }

def clear (s : DWRR) (this : ℕ) : DWRR :=
  let q := s.dwrr this
  { s with dwrr := Function.update s.dwrr this { q with turn := false, deficitCounter := 0 } }

/-- The head packet of `this` is sent. -/
def send (s : DWRR) (this : ℕ) (pkt : Packet) : DWRR :=
  let s := (s.charge this pkt).take this pkt
  if (s.dwrr this).pkts = 0 then (s.clear this).idle this this else s

/-- The turn of `this` ends. -/
def pass (s : DWRR) (this : ℕ) : DWRR :=
  let q := s.dwrr this
  let cerprique := s.cerprique + 1
  { s with
    dwrr := Function.update s.dwrr this { q with turn := false },
    cerprique := if cerprique ≥ s.flwcnt then 0 else cerprique }

/-- What one turn of the loop of `deque` did: the flow it visited, whether
the flow was granted a quantum, and the packet it returned. -/
structure Visit where
  flow : ℕ
  granted : Bool
  pkt : Option Packet
deriving DecidableEq

/-- One turn of the loop of `deque`. -/
def visit (s : DWRR) : Option (DWRR × Visit) := do
  let this ← s.moveMaxweight
  let s := { s with curr := some this }
  let granted := !(s.dwrr this).turn
  let s := { s with dwrr := Function.update s.dwrr this (grant s.quantum (s.dwrr this)) }
  let pkt ← (s.dwrr this).queue.head?
  if (s.dwrr this).deficitCounter ≥ (pkt.size : ℤ) then return (s.send this pkt, ⟨this, granted, some pkt⟩)
  else return (s.pass this, ⟨this, granted, none⟩)

/-- The loop of `deque`, stopped after `rounds` turns if it has not returned by then. -/
def loop : ℕ → DWRR → Option (DWRR × Option Packet)
  | 0, s => some (s, none)
  | n + 1, s => do
    let (s, v) ← s.visit
    match v.pkt with
    | some pkt => return (s, some pkt)
    | none => loop n s

def deque (rounds : ℕ) (s : DWRR) : Option (DWRR × Option Packet) :=
  if s.bytecnt = 0 then some (s, none) else loop rounds s

inductive Call
  | enque (pkt : Packet)
  | deque (rounds : ℕ)
deriving DecidableEq

def Call.arrivals : Call → List Packet
  | .enque pkt => [pkt]
  | .deque _ => []

def step (s : DWRR) : Call → Option (DWRR × Outcome Packet)
  | .enque pkt => (s.enque pkt).map fun next => (next.1, ⟨none, next.2⟩)
  | .deque rounds => (s.deque rounds).map fun next => (next.1, ⟨next.2, []⟩)

def machine : Machine DWRR Call (Outcome Packet) := ⟨step⟩

end DWRR

end Ns2
