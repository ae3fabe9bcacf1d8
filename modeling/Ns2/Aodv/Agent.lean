import Mathlib.Algebra.Order.Field.Rat
import Mathlib.Data.Rat.Floor
import Ns2.Library.Asserting
import Ns2.Library.Machine

namespace Ns2

inductive AodvFlags
  | down
  | up
  | inRepair
deriving DecidableEq

/-- `INFINITY2`. -/
def aodvInfinity : ℕ := 255

structure AodvRtEntry where
  dst : ℕ
  seqno : ℕ
  hops : ℕ
  lastHopCount : ℕ
  nexthop : ℕ
  pclist : List ℕ
  expire : ℚ
  flags : AodvFlags
  reqTimeout : ℚ
  reqCnt : ℕ
  reqLastTtl : ℕ
  discLatency : List ℚ
  histIndx : ℕ
deriving DecidableEq

structure AodvRequest where
  hopCount : ℕ
  bcastId : ℕ
  dst : ℕ
  dstSeqno : ℕ
  src : ℕ
  srcSeqno : ℕ
  timestamp : ℚ
deriving DecidableEq

structure AodvReply where
  hopCount : ℕ
  dst : ℕ
  dstSeqno : ℕ
  src : ℕ
  lifetime : ℚ
  timestamp : ℚ
deriving DecidableEq

/-- The header after the common ones, or a data packet with its `num_forwards`. -/
inductive AodvBody
  | request (rq : AodvRequest)
  | reply (rp : AodvReply)
  | error (unreachable : List (ℕ × ℕ))
  | hello (rh : AodvReply)
  | data (numForwards : ℤ)
deriving DecidableEq

def AodvBody.isData : AodvBody → Bool
  | .data _ => true
  | .request _ | .reply _ | .error _ | .hello _ => false

/-- A packet; no `daddr` stands for `IP_BROADCAST`, and no `nextHop` for the address type `NS_AF_NONE`. -/
structure AodvPacket where
  ttl : ℤ
  saddr : ℕ
  daddr : Option ℕ
  nextHop : Option ℕ
  isUp : Bool
  body : AodvBody
deriving DecidableEq

structure AodvNeighbor where
  addr : ℕ
  expire : ℚ
deriving DecidableEq

structure AodvBroadcastID where
  src : ℕ
  id : ℕ
  expire : ℚ
deriving DecidableEq

structure AODV where
  index : ℕ
  seqno : ℕ
  bid : ℕ
  rtable : List AodvRtEntry
  nbhead : List AodvNeighbor
  bihead : List AodvBroadcastID
  rqueue : List (AodvPacket × ℚ)
deriving DecidableEq

namespace AodvRtEntry

def make (dst : ℕ) : AodvRtEntry where
  dst := dst
  seqno := 0
  hops := aodvInfinity
  lastHopCount := aodvInfinity
  nexthop := 0
  pclist := []
  expire := 0
  flags := .down
  reqTimeout := 0
  reqCnt := 0
  reqLastTtl := 0
  discLatency := [0, 0, 0]
  histIndx := 0

def pcInsert (rt : AodvRtEntry) (id : ℕ) : AodvRtEntry :=
  if id ∈ rt.pclist then rt else { rt with pclist := id :: rt.pclist }

def pcDelete (rt : AodvRtEntry) (id : ℕ) : AodvRtEntry := { rt with pclist := rt.pclist.erase id }

def rtUpdate (rt : AodvRtEntry) (seqnum metric nexthop : ℕ) (expireTime : ℚ) : AodvRtEntry :=
  { rt with seqno := seqnum, hops := metric, flags := .up, nexthop := nexthop, expire := expireTime }

def rtDown (rt : AodvRtEntry) : AodvRtEntry :=
  if rt.flags = .down then rt
  else { rt with lastHopCount := rt.hops, hops := aodvInfinity, flags := .down, nexthop := 0, expire := 0 }

/-- `rt_seqno++`. -/
def raise (rt : AodvRtEntry) : AodvRtEntry := { rt with seqno := (rt.seqno + 1) % 2 ^ 32 }

def perHopTime (rt : AodvRtEntry) : ℚ :=
  let known := rt.discLatency.filter (0 < ·)
  if known.length > 0 then known.sum / known.length else 3 / 100

/-- What `sendRequest` sets in the entry: the TTL to be used this time, and when the next request may be sent. -/
def requested (rt : AodvRtEntry) (now : ℚ) : AodvRtEntry :=
  let lastTtl := max rt.reqLastTtl rt.lastHopCount
  let ttl := if lastTtl = 0 then 5 else if lastTtl < 7 then lastTtl + 2 else 30
  let reqCnt := if lastTtl < 7 then rt.reqCnt else rt.reqCnt + 1
  let wait := 2 * ttl * rt.perHopTime
  let timeout := (if reqCnt > 0 then wait * reqCnt else wait) + now
  { rt with reqLastTtl := ttl, reqCnt := reqCnt, reqTimeout := min timeout (now + 10), expire := 0 }

end AodvRtEntry

namespace AODV

open AodvRtEntry

def make (id : ℕ) : AODV := ⟨id, 2, 1, [], [], [], []⟩

def rtLookup (a : AODV) (id : ℕ) : Option AodvRtEntry := a.rtable.find? (·.dst = id)

def rtAdd (a : AODV) (id : ℕ) : AODV := { a with rtable := .make id :: a.rtable }

/-- A change of the entry through the pointer to it. -/
def rtSet (a : AODV) (rt : AodvRtEntry) : AODV :=
  { a with rtable := a.rtable.map fun old => if old.dst = rt.dst then rt else old }

/-- `rt_lookup`, and `rt_add` where there is no entry. -/
def rtFind (a : AODV) (id : ℕ) : AODV × AodvRtEntry :=
  match a.rtLookup id with
  | some rt => (a, rt)
  | none => (a.rtAdd id, .make id)

def idInsert (a : AODV) (now : ℚ) (id bid : ℕ) : AODV := { a with bihead := ⟨id, bid, now + 6⟩ :: a.bihead }

def idLookup (a : AODV) (id bid : ℕ) : Bool := a.bihead.any fun b => b.src = id ∧ b.id = bid

def idPurge (a : AODV) (now : ℚ) : AODV := { a with bihead := a.bihead.filter fun b => ¬b.expire ≤ now }

/-- `aodv_rqueue::enque`. -/
def enque (a : AODV) (now : ℚ) (p : AodvPacket) : AODV :=
  let kept := a.rqueue.filter fun queued => ¬queued.2 < now
  { a with rqueue := (if kept.length = 64 then kept.tail else kept) ++ [(p, now + 30)] }

/-- All that `aodv_rqueue::deque(dst)` gives one after the other. -/
def dequeAll (a : AODV) (now : ℚ) (dst : ℕ) : AODV × List AodvPacket :=
  let kept := a.rqueue.filter fun queued => ¬queued.2 < now
  ({ a with rqueue := kept.filter fun queued => ¬queued.1.daddr = some dst },
    (kept.filter fun queued => queued.1.daddr = some dst).map Prod.fst)

/-- `forward` with the entry for `dst`, or without an entry. -/
def forward (a : AODV) (now : ℚ) (dst : Option ℕ) (p : AodvPacket) : Option (AODV × List AodvPacket) :=
  if p.ttl = 0 then some (a, [])
  else if (p.body.isData = true ∧ p.isUp = true ∧ p.daddr = none) ∨ p.daddr = some a.index then some (a, [])
  else
    match dst with
    | some dst => do
      let rt ← a.rtLookup dst
      asserting (rt.flags = .up ∧ p.daddr ≠ none)
        (some (a.rtSet { rt with expire := now + 10 }, [{ p with nextHop := some rt.nexthop, isUp := false }]))
    | none => asserting (p.daddr = none) (some (a, [{ p with nextHop := none, isUp := false }]))

/-- `forward` for packets from the send buffer, one after the other. -/
def forwardAll (a : AODV) (now : ℚ) (dst : ℕ) : List AodvPacket → Option (AODV × List AodvPacket)
  | [] => some (a, [])
  | p :: rest => do
    let first ← a.forward now (some dst) p
    let others ← first.1.forwardAll now dst rest
    return (others.1, first.2 ++ others.2)

/-- The send buffer is emptied of the packets to `dst`, which are forwarded. -/
def flush (a : AODV) (now : ℚ) (dst : ℕ) : Option (AODV × List AodvPacket) :=
  (a.dequeAll now dst).1.forwardAll now dst (a.dequeAll now dst).2

/-- The packet that `sendRequest` fills out. -/
def request (a : AODV) (now : ℚ) (rt : AodvRtEntry) : AodvPacket where
  ttl := rt.reqLastTtl
  saddr := a.index
  daddr := none
  nextHop := none
  isUp := false
  body := .request ⟨1, a.bid, rt.dst, rt.seqno, a.index, (a.seqno + 2) % 2 ^ 32, now⟩

def sendRequest (a : AODV) (now : ℚ) (dst : ℕ) : Option (AODV × List AodvPacket) := do
  let rt ← a.rtLookup dst
  if rt.flags = .up then asserting (rt.hops ≠ aodvInfinity) (some (a, []))
  else if rt.reqTimeout > now then some (a, [])
  else if rt.reqCnt > 3 then some (((a.rtSet { rt with reqTimeout := now + 10, reqCnt := 0 }).dequeAll now dst).1, [])
  else
    let rt := rt.requested now
    asserting ((a.seqno + 2) % 2 ^ 32 % 2 = 0)
      (some ({ a.rtSet rt with bid := a.bid + 1, seqno := (a.seqno + 2) % 2 ^ 32 }, [a.request now rt]))

def sendReply (a : AODV) (ipdst hopCount rpdst rpseq : ℕ) (lifetime timestamp : ℚ) : Option (List AodvPacket) := do
  let rt ← a.rtLookup ipdst
  return [⟨30, a.index, some ipdst, some rt.nexthop, false, .reply ⟨hopCount % 2 ^ 8, rpdst, rpseq, a.index, lifetime, timestamp⟩⟩]

def sendError (a : AODV) (unreachable : List (ℕ × ℕ)) : List AodvPacket :=
  [⟨1, a.index, none, none, false, .error unreachable⟩]

def sendHello (a : AODV) : List AodvPacket := [⟨1, a.index, none, none, false, .hello ⟨1, a.index, a.seqno, 0, 4, 0⟩⟩]

/-- The entry is one that `handle_link_failure(id)` takes down. -/
def usesLink (id : ℕ) (rt : AodvRtEntry) : Prop := rt.hops ≠ aodvInfinity ∧ rt.nexthop = id

instance (id : ℕ) (rt : AodvRtEntry) : Decidable (usesLink id rt) := inferInstanceAs (Decidable (_ ∧ _))

def handleLinkFailure (a : AODV) (id : ℕ) : Option (AODV × List AodvPacket) :=
  asserting (∀ rt ∈ a.rtable, usesLink id rt → rt.flags = .up ∧ rt.seqno % 2 = 0) <|
    let unreachable := (a.rtable.filter fun rt => usesLink id rt).map fun rt => (rt.dst, rt.raise.seqno)
    some ({ a with rtable := a.rtable.map fun rt => (if usesLink id rt then rt.raise.rtDown else rt).pcDelete id },
      if unreachable = [] then [] else a.sendError unreachable)

/-- `seqno += 2` when the set of neighbors changes. -/
def neighborsChanged (a : AODV) : AODV := { a with seqno := (a.seqno + 2) % 2 ^ 32 }

def nbDelete (a : AODV) (id : ℕ) : Option (AODV × List AodvPacket) :=
  asserting (a.neighborsChanged.seqno % 2 = 0)
    ({ a.neighborsChanged with nbhead := a.nbhead.eraseP (·.addr = id) }.handleLinkFailure id)

def nbInsert (a : AODV) (now : ℚ) (id : ℕ) : Option AODV :=
  asserting (a.neighborsChanged.seqno % 2 = 0)
    (some { a.neighborsChanged with nbhead := ⟨id, now + 9 / 2⟩ :: a.nbhead })

def nbDeleteAll (a : AODV) : List ℕ → Option (AODV × List AodvPacket)
  | [] => some (a, [])
  | id :: rest => do
    let first ← a.nbDelete id
    let others ← first.1.nbDeleteAll rest
    return (others.1, first.2 ++ others.2)

def nbPurge (a : AODV) (now : ℚ) : Option (AODV × List AodvPacket) :=
  a.nbDeleteAll ((a.nbhead.filter (·.expire ≤ now)).map AodvNeighbor.addr)

def localRtRepair (a : AODV) (now : ℚ) (rt : AodvRtEntry) (p : AodvPacket) : Option (AODV × List AodvPacket) :=
  ((a.enque now p).rtSet { rt with flags := .inRepair }).sendRequest now rt.dst

def rtLlFailed (a : AODV) (now : ℚ) (p : AodvPacket) : Option (AODV × List AodvPacket) :=
  match p.body, p.daddr with
  | .data numForwards, some daddr =>
    match a.rtLookup daddr with
    | none => some (a, [])
    | some rt => if numForwards > rt.hops then a.localRtRepair now rt p else a.nbDelete (p.nextHop.getD 0)
  | _, _ => some (a, [])

/-- `LocalRepairTimer::handle`. -/
def localRepairTimeout (a : AODV) (daddr : ℕ) : AODV :=
  match a.rtLookup daddr with
  | none => a
  | some rt => if rt.flags ≠ .up then a.rtSet rt.rtDown else a

def rtResolve (a : AODV) (now : ℚ) (daddr : ℕ) (p : AodvPacket) : Option (AODV × List AodvPacket) :=
  let (a, rt) := a.rtFind daddr
  if rt.flags = .up then asserting (rt.hops ≠ aodvInfinity) (a.forward now (some rt.dst) p)
  else if p.saddr = a.index then (a.enque now p).sendRequest now rt.dst
  else if rt.flags = .inRepair then some (a.enque now p, [])
  else asserting (rt.flags = .down) (some (a, a.sendError [(rt.dst, rt.seqno)]))

/-- The turn of `rt_purge` for one entry. -/
def purgeEntry (a : AODV) (now : ℚ) (dst : ℕ) : Option (AODV × List AodvPacket) := do
  let rt ← a.rtLookup dst
  if rt.flags = .up ∧ rt.expire < now then
    asserting (rt.hops ≠ aodvInfinity) <| asserting (rt.raise.seqno % 2 = 1) <|
      some ((a.dequeAll now dst).1.rtSet rt.raise.rtDown, [])
  else if rt.flags = .up then asserting (rt.hops ≠ aodvInfinity) (a.flush now dst)
  else if a.rqueue.any (·.1.daddr = some dst) then a.sendRequest now dst
  else some (a, [])

def purgeEntries (a : AODV) (now : ℚ) : List ℕ → Option (AODV × List AodvPacket)
  | [] => some (a, [])
  | dst :: rest => do
    let first ← a.purgeEntry now dst
    let others ← first.1.purgeEntries now rest
    return (others.1, first.2 ++ others.2)

def rtPurge (a : AODV) (now : ℚ) : Option (AODV × List AodvPacket) :=
  a.purgeEntries now (a.rtable.map AodvRtEntry.dst)

/-- `seqno` of a destination that answers a request: the next even number. -/
def answerSeqno (seqno dstSeqno : ℕ) : ℕ :=
  let next := (max seqno dstSeqno + 1) % 2 ^ 32
  if next % 2 = 1 then (next + 1) % 2 ^ 32 else next

/-- A route with this sequence number and hop count is newer or shorter than the one in the entry. -/
def isBetter (rt : AodvRtEntry) (seqno hopCount : ℕ) : Prop :=
  seqno > rt.seqno ∨ seqno = rt.seqno ∧ hopCount < rt.hops

instance (rt : AodvRtEntry) (seqno hopCount : ℕ) : Decidable (isBetter rt seqno hopCount) :=
  inferInstanceAs (Decidable (_ ∨ _))

/-- The part of `recvRequest` on the reverse route. -/
def reverseRoute (a : AODV) (now : ℚ) (saddr : ℕ) (rq : AodvRequest) : Option (AODV × List AodvPacket) :=
  let (a, rt0) := a.rtFind rq.src
  let rt0 := { rt0 with expire := max rt0.expire (now + 6) }
  if isBetter rt0 rq.srcSeqno rq.hopCount then
    let rt0 := rt0.rtUpdate rq.srcSeqno rq.hopCount saddr (max rt0.expire (now + 6))
    let rt0 := if rt0.reqTimeout > 0 then
        { rt0 with reqCnt := 0, reqTimeout := 0, reqLastTtl := rq.hopCount, expire := now + 10 }
      else rt0
    asserting (rt0.flags = .up) <|
      asserting (((a.rtSet rt0).dequeAll now rq.src).2 = [] ∨ rt0.hops ≠ aodvInfinity) ((a.rtSet rt0).flush now rq.src)
  else some (a.rtSet rt0, [])

/-- A time as `u_int32_t`: the fraction is cut off, and the number of seconds wraps. -/
def uint32 (time : ℚ) : ℕ := ((if 0 ≤ time then ⌊time⌋ else ⌈time⌉) % 2 ^ 32).toNat

/-- The part of `recvRequest` that answers the request or passes it on. -/
def answerRequest (a : AODV) (now : ℚ) (p : AodvPacket) (rq : AodvRequest) : Option (AODV × List AodvPacket) :=
  if rq.dst = a.index then
    let a := { a with seqno := answerSeqno a.seqno rq.dstSeqno }
    (a.sendReply rq.src 1 a.index a.seqno 10 rq.timestamp).map fun sent => (a, sent)
  else
    match a.rtLookup rq.dst with
    | some rt =>
      if rt.hops ≠ aodvInfinity ∧ rt.seqno ≥ rq.dstSeqno then do
        let sent ← a.sendReply rq.src (rt.hops + 1) rq.dst rt.seqno (uint32 (rt.expire - now)) rq.timestamp
        let rt0 ← a.rtLookup rq.src
        let a := a.rtSet (rt.pcInsert rt0.nexthop)
        let rt ← a.rtLookup rq.dst
        let rt0 ← a.rtLookup rq.src
        return (a.rtSet (rt0.pcInsert rt.nexthop), sent)
      else
        a.forward now none { p with
          saddr := a.index, daddr := none,
          body := .request { rq with hopCount := (rq.hopCount + 1) % 2 ^ 8, dstSeqno := max rt.seqno rq.dstSeqno } }
    | none =>
      a.forward now none { p with
        saddr := a.index, daddr := none, body := .request { rq with hopCount := (rq.hopCount + 1) % 2 ^ 8 } }

def recvRequest (a : AODV) (now : ℚ) (p : AodvPacket) (rq : AodvRequest) : Option (AODV × List AodvPacket) :=
  if rq.src = a.index then some (a, [])
  else if a.idLookup rq.src rq.bcastId = true then some (a, [])
  else do
    let first ← (a.idInsert now rq.src rq.bcastId).reverseRoute now p.saddr rq
    let others ← first.1.answerRequest now p rq
    return (others.1, first.2 ++ others.2)

/-- The part of `recvReply` that sends a reply on to the source of the request. -/
def passReply (a : AODV) (now : ℚ) (p : AodvPacket) (rp : AodvReply) : Option (AODV × List AodvPacket) :=
  match p.daddr.bind a.rtLookup with
  | some rt0 =>
    if rt0.hops ≠ aodvInfinity then
      asserting (rt0.flags = .up) do
        let sent ← a.forward now p.daddr
          { p with body := .reply { rp with hopCount := (rp.hopCount + 1) % 2 ^ 8, src := a.index } }
        let rt ← sent.1.rtLookup rp.dst
        return (sent.1.rtSet (rt.pcInsert rt0.nexthop), sent.2)
    else some (a, [])
  | none => some (a, [])

def recvReply (a : AODV) (now : ℚ) (p : AodvPacket) (rp : AodvReply) : Option (AODV × List AodvPacket) :=
  let (a, rt) := a.rtFind rp.dst
  if isBetter rt rp.dstSeqno rp.hopCount then do
    let rt := rt.rtUpdate rp.dstSeqno rp.hopCount rp.src (now + rp.lifetime)
    let rt := { rt with reqCnt := 0, reqTimeout := 0, reqLastTtl := rp.hopCount }
    let rt := if p.daddr = some a.index then
        { rt with
          discLatency := rt.discLatency.set rt.histIndx ((now - rp.timestamp) / rp.hopCount)
          histIndx := (rt.histIndx + 1) % 3 }
      else rt
    let a := a.rtSet rt
    let first ← if rt.hops ≠ aodvInfinity then asserting (rt.flags = .up) (a.flush now rp.dst)
      else some ((a.dequeAll now rp.dst).1, [])
    if p.daddr = some first.1.index then some first
    else do
      let others ← first.1.passReply now p rp
      return (others.1, first.2 ++ others.2)
  else some (a, [])

/-- The turn of `recvError` for one destination, with what it adds to the RERR to be sent. -/
def errorEntry (a : AODV) (saddr dst seqno : ℕ) : Option (AODV × List (ℕ × ℕ)) :=
  match a.rtLookup dst with
  | some rt =>
    if rt.hops ≠ aodvInfinity ∧ rt.nexthop = saddr ∧ rt.seqno ≤ seqno then
      asserting (rt.flags = .up) <| asserting (rt.seqno % 2 = 0) <|
        let rt := { rt with seqno := seqno }.rtDown
        if rt.pclist ≠ [] then some (a.rtSet { rt with pclist := [] }, [(rt.dst, rt.seqno)]) else some (a.rtSet rt, [])
    else some (a, [])
  | none => some (a, [])

def errorEntries (a : AODV) (saddr : ℕ) : List (ℕ × ℕ) → Option (AODV × List (ℕ × ℕ))
  | [] => some (a, [])
  | lost :: rest => do
    let first ← a.errorEntry saddr lost.1 lost.2
    let others ← first.1.errorEntries saddr rest
    return (others.1, first.2 ++ others.2)

def recvError (a : AODV) (saddr : ℕ) (unreachable : List (ℕ × ℕ)) : Option (AODV × List AodvPacket) :=
  (a.errorEntries saddr unreachable).map fun result =>
    (result.1, if result.2 = [] then [] else result.1.sendError result.2)

def recvHello (a : AODV) (now : ℚ) (id : ℕ) : Option AODV :=
  if a.nbhead.any (·.addr = id) then
    some { a with nbhead := a.nbhead.map fun nb => if nb.addr = id then { nb with expire := now + 9 / 2 } else nb }
  else a.nbInsert now id

/-- `recv` for a data packet. -/
def recvData (a : AODV) (now : ℚ) (p : AodvPacket) (numForwards : ℤ) : Option (AODV × List AodvPacket) :=
  let resolve (p : AodvPacket) := match p.daddr with
    | some daddr => a.rtResolve now daddr p
    | none => a.forward now none p
  if p.saddr = a.index then
    if numForwards = 0 then resolve (if p.daddr = none then p else { p with ttl := 30 }) else some (a, [])
  else if p.ttl - 1 = 0 then some (a, [])
  else resolve { p with ttl := p.ttl - 1 }

def recv (a : AODV) (now : ℚ) (p : AodvPacket) : Option (AODV × List AodvPacket) :=
  match p.body with
  | .request rq => a.recvRequest now { p with ttl := p.ttl - 1 } rq
  | .reply rp => a.recvReply now { p with ttl := p.ttl - 1 } rp
  | .error unreachable => a.recvError p.saddr unreachable
  | .hello rh => (a.recvHello now rh.dst).map fun a => (a, [])
  | .data numForwards => a.recvData now p numForwards

inductive Event
  | recv (p : AodvPacket)
  | linkFailed (p : AodvPacket)
  | broadcastTimer
  | helloTimer
  | neighborTimer
  | routeCacheTimer
  | localRepairTimer (daddr : ℕ)
deriving DecidableEq

def handle (a : AODV) (now : ℚ) : Event → Option (AODV × List AodvPacket)
  | .recv p => a.recv now p
  | .linkFailed p => a.rtLlFailed now p
  | .broadcastTimer => some (a.idPurge now, [])
  | .helloTimer => some (a, a.sendHello)
  | .neighborTimer => a.nbPurge now
  | .routeCacheTimer => a.rtPurge now
  | .localRepairTimer daddr => some (a.localRepairTimeout daddr, [])

end AODV

end Ns2
