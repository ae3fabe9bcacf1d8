import Mathlib.Data.PNat.Basic
import Ns2.Library.SignedWord
import Ns2.Queue.FlowTable

namespace Ns2

structure PacketDRR where
  queue : PacketQueue
  pkts : ℤ
  bcount : ℤ
  deficitCounter : ℤ
  turn : Bool
deriving DecidableEq

/-- `links` are the `prev` and `next` of the buckets. -/
structure DRR where
  buckets : ℕ+
  blimit : ℤ
  quantum : ℤ
  mask : Bool
  drr : ℕ → PacketDRR
  links : Links ℕ
  curr : Option ℕ
  bytecnt : ℤ
  pktcnt : ℤ
  flwcnt : ℤ

namespace DRR

open SignedWord (wrap)

def make (buckets : ℕ+) (blimit quantum : ℤ) (mask : Bool) : DRR where
  buckets := buckets
  blimit := blimit
  quantum := quantum
  mask := mask
  drr := fun _ => ⟨[], 0, 0, 0, false⟩
  links := ⟨id, id⟩
  curr := none
  bytecnt := 0
  pktcnt := 0
  flwcnt := 0

/-- The sums are those of 32-bit words. -/
def hash (mask : Bool) (saddr : ℤ) : ℤ :=
  let i := if mask then Int.land saddr 0xfff0 else saddr
  (wrap 32 (wrap 32 (i + (i >>> (8 : ℕ))) + ~~~(i >>> (4 : ℕ)))).tmod (2 <<< 23 - 1) + 1

/-- The remainder by which a source address selects its bucket. -/
def index (mask : Bool) (buckets saddr : ℤ) : ℤ := (hash mask saddr).tmod buckets

def getMaxflow (s : DRR) : Option ℕ :=
  s.curr.map fun head => s.links.argmax (fun i => (s.drr i).bcount) s.flwcnt.toNat head head

/-- A flow that has become active. Its `turn` stays as it was. -/
def activate (s : DRR) (this : ℕ) : DRR :=
  let activated := s.links.activate this s.curr
  { s with
    links := activated.1, curr := activated.2, drr := Function.update s.drr this { s.drr this with deficitCounter := 0 },
    flwcnt := s.flwcnt + 1 }

/-- A flow that has become empty. -/
def idle (s : DRR) (this head : ℕ) : DRR :=
  let idled := s.links.idle this head
  { s with links := idled.1, curr := idled.2, flwcnt := s.flwcnt - 1 }

def store (s : DRR) (this : ℕ) (pkt : Packet) : DRR :=
  let q := s.drr this
  let q := { q with queue := q.queue.enque pkt, pkts := q.pkts + 1, bcount := q.bcount + pkt.size }
  { s with drr := Function.update s.drr this q, pktcnt := s.pktcnt + 1, bytecnt := s.bytecnt + pkt.size }

/-- The head packet of a flow leaves its queue. -/
def take (s : DRR) (this : ℕ) (pkt : Packet) : DRR :=
  let q := s.drr this
  let q := { q with queue := q.queue.deque.2, pkts := q.pkts - 1, bcount := q.bcount - pkt.size }
  { s with drr := Function.update s.drr this q, pktcnt := s.pktcnt - 1, bytecnt := s.bytecnt - pkt.size }

/-- One turn of the overflow loop of `enque`. -/
def overflow (s : DRR) : Option (DRR × Packet) := do
  let head ← s.curr
  let remq ← s.getMaxflow
  let p ← (s.drr remq).queue.deque.1
  let s := s.take remq p
  if (s.drr remq).pkts = 0 then return (s.idle remq head, p) else return (s, p)

/-- The overflow loop, which drops at most every packet there is. `none` is a null pointer followed. -/
def overflows : ℕ → DRR → Option (DRR × List Packet)
  | 0, s => if s.bytecnt > s.blimit then none else some (s, [])
  | n + 1, s =>
    if s.bytecnt > s.blimit then do
      let (s, p) ← s.overflow
      let (s, dropped) ← overflows n s
      return (s, p :: dropped)
    else some (s, [])

/-- A packet is stored, and its flow activated when it is the only one there. -/
def arrive (s : DRR) (this : ℕ) (pkt : Packet) : DRR :=
  let s := s.store this pkt
  if (s.drr this).pkts = 1 then s.activate this else s

def which (s : DRR) (pkt : Packet) : ℕ := (index s.mask s.buckets pkt.saddr).toNat

/-- The answer is the packets dropped. `none` is an access outside `drr` or a null pointer followed. -/
def enque (s : DRR) (pkt : Packet) : Option (DRR × List Packet) :=
  if 0 ≤ index s.mask s.buckets pkt.saddr then
    let s := s.arrive (s.which pkt) pkt
    s.overflows s.pktcnt.toNat
  else none

/-- The quantum that a flow gets at the start of its turn. -/
def grant (quantum : ℤ) (q : PacketDRR) : PacketDRR :=
  if q.turn then q else { q with deficitCounter := q.deficitCounter + quantum, turn := true }

def charge (s : DRR) (this : ℕ) (pkt : Packet) : DRR :=
  let q := s.drr this
  { s with drr := Function.update s.drr this { q with deficitCounter := q.deficitCounter - pkt.size } }

def reset (s : DRR) (this : ℕ) : DRR :=
  let q := s.drr this
  { s with drr := Function.update s.drr this { q with turn := false, deficitCounter := 0 } }

/-- The head packet of `this` is sent. -/
def send (s : DRR) (this : ℕ) (pkt : Packet) : DRR :=
  let s := (s.charge this pkt).take this pkt
  if (s.drr this).pkts = 0 then (s.reset this).idle this this else s

/-- The turn of `this` ends. -/
def pass (s : DRR) (this : ℕ) : DRR :=
  let q := s.drr this
  { s with drr := Function.update s.drr this { q with turn := false }, curr := some (s.links.next this) }

/-- What one turn of the loop of `deque` did: the flow it visited, whether the flow was granted a quantum, and
the packet it returned. Without a packet the visit is over. -/
structure Visit where
  flow : ℕ
  granted : Bool
  pkt : Option Packet
deriving DecidableEq

/-- One turn of the loop of `deque`. -/
def visit (s : DRR) : Option (DRR × Visit) := do
  let this ← s.curr
  let granted := !(s.drr this).turn
  let s := { s with drr := Function.update s.drr this (grant s.quantum (s.drr this)) }
  let pkt ← (s.drr this).queue.head?
  if (s.drr this).deficitCounter ≥ (pkt.size : ℤ) then return (s.send this pkt, ⟨this, granted, some pkt⟩)
  else return (s.pass this, ⟨this, granted, none⟩)

/-- The loop of `deque`, stopped after `rounds` turns if it has not returned by then. -/
def loop : ℕ → DRR → Option (DRR × Option Packet)
  | 0, s => some (s, none)
  | n + 1, s => do
    let (s, v) ← s.visit
    match v.pkt with
    | some pkt => return (s, some pkt)
    | none => loop n s

def deque (rounds : ℕ) (s : DRR) : Option (DRR × Option Packet) :=
  if s.bytecnt = 0 then some (s, none) else loop rounds s

/-- A run in single steps: each call of `enque`, and each turn of the loop of `deque`. -/
inductive Event
  | enque (pkt : Packet)
  | visit
deriving DecidableEq

def event (s : DRR) : Event → Option (DRR × Option Visit)
  | .enque pkt => (s.enque pkt).map fun next => (next.1, none)
  | .visit => s.visit.map fun next => (next.1, some next.2)

def events : Machine DRR Event (Option Visit) := ⟨event⟩

end DRR

end Ns2
