import Mathlib.Algebra.Order.Field.Rat
import Ns2.Library.Asserting
import Ns2.Library.Machine

namespace Ns2

/-- `BIG`, the metric of a route that is not there. -/
def big : ℕ := 250

/-- A data packet; no `daddr` stands for `IP_BROADCAST`. -/
structure DsdvData where
  saddr : ℕ
  daddr : Option ℕ
  ttl : ℤ
  numForwards : ℤ
  nextHop : ℕ
deriving DecidableEq

structure RtableEnt where
  dst : ℕ
  hop : ℕ
  metric : ℕ
  seqnum : ℕ
  advertiseOkAt : ℚ
  advertSeqnum : Bool
  advertMetric : Bool
  lastAdvertisedMetric : ℕ
  changedAt : ℚ
  newSeqnumAt : ℚ
  wst : ℚ
  timeoutEvent : Bool
  q : Option (List DsdvData)
deriving DecidableEq

/-- An entry after `bzero`. -/
def RtableEnt.zero : RtableEnt := ⟨0, 0, 0, 0, 0, false, false, 0, 0, 0, 0, false, none⟩

/-- A destination in an update packet, with its metric and its sequence number. -/
structure Advert where
  dst : ℕ
  metric : ℕ
  seqnum : ℕ
deriving DecidableEq

/-- An update packet. -/
structure DsdvUpdate where
  saddr : ℕ
  ttl : ℤ
  adverts : List Advert
deriving DecidableEq

inductive DsdvPacket
  | update (u : DsdvUpdate)
  | data (p : DsdvData)
deriving DecidableEq

/-- The parameters of an agent, and the addresses outside its subnet with the base station for them. -/
structure DsdvConfig where
  alpha : ℚ
  wst0 : ℚ
  useMac : Bool
  diffSubnet : ℕ → Bool
  baseStn : ℕ

structure DsdvAgent where
  myaddr : ℕ
  seqno : ℕ
  table : List RtableEnt
  lasttup : ℚ

namespace RtableEnt

/-- The entry goes into an update packet. -/
def advertised (now : ℚ) (periodic : Bool) (e : RtableEnt) : Bool :=
  if periodic then e.advertiseOkAt ≤ now else (e.advertSeqnum || e.advertMetric) && e.advertiseOkAt ≤ now

/-- What advertising does to the entry. -/
def afterAdvert (periodic : Bool) (e : RtableEnt) : RtableEnt :=
  { e with lastAdvertisedMetric := e.metric, advertSeqnum := false, advertMetric := if periodic then false else e.advertMetric }

/-- The entry of a route over a neighbor that is lost. -/
def lost (now : ℚ) (e : RtableEnt) : RtableEnt :=
  { e with metric := big, advertiseOkAt := now, advertMetric := true, advertSeqnum := true, seqnum := (e.seqnum + 1) % 2 ^ 32 }

end RtableEnt

namespace DsdvAgent

open RtableEnt

/-- `AddEntry`, in a table that is sorted by destination. -/
def insertEntry (ent : RtableEnt) : List RtableEnt → List RtableEnt
  | [] => [ent]
  | it :: rest => if ent.dst < it.dst then ent :: it :: rest else if ent.dst = it.dst then ent :: rest else it :: insertEntry ent rest

def addEntry (a : DsdvAgent) (ent : RtableEnt) : DsdvAgent := { a with table := insertEntry ent a.table }

def getEntry (a : DsdvAgent) (dest : ℕ) : Option RtableEnt := a.table.find? (·.dst = dest)

/-- The entry that an agent has for itself. -/
def selfEntry (a : DsdvAgent) (now : ℚ) : RtableEnt :=
  { RtableEnt.zero with
    dst := a.myaddr, hop := a.myaddr, metric := 0, seqnum := a.seqno % 2 ^ 32, advertSeqnum := true, changedAt := now, newSeqnumAt := now }

/-- An agent after `startUp`. -/
def startUp (myaddr : ℕ) : DsdvAgent :=
  let a : DsdvAgent := ⟨myaddr, 0, [], -10⟩
  { a.addEntry { a.selfEntry 0 with advertMetric := true } with seqno := a.seqno + 2 }

/-- Much of the table has changed, so that the update is a periodic one. -/
def muchChanged (a : DsdvAgent) (now : ℚ) : Bool :=
  a.table.countP (advertised now false) * 3 > a.table.length && a.table.countP (advertised now false) > 3

/-- The agent after `makeUpdate`, and the update packet. -/
def makeUpdate (a : DsdvAgent) (now : ℚ) (periodic : Bool) : Option (DsdvAgent × Option DsdvUpdate) :=
  let periodic := periodic || a.muchChanged now
  let changeCount := a.table.countP (advertised now periodic)
  let a := if periodic then
      let a := { a with seqno := a.seqno + 2 }
      a.addEntry (a.selfEntry now)
    else a
  if changeCount = 0 then some (a, none)
  else
    let included := a.table.filter (advertised now periodic)
    asserting (changeCount = included.length) <|
      some ({ a with table := a.table.map fun e => if e.advertised now periodic then e.afterAdvert periodic else e },
        some ⟨a.myaddr, 32, (included.map fun e => ⟨e.dst, e.metric, e.seqnum⟩).take (changeCount % 2 ^ 8)⟩)

/-- The part of `helper_callback` on a neighbor that is lost. -/
def timeout (a : DsdvAgent) (now : ℚ) (dest : ℕ) : DsdvAgent :=
  { a with table := a.table.map fun pr2 =>
      let pr2' := if pr2.hop = dest ∧ pr2.metric ≠ big then pr2.lost now else pr2
      if pr2.dst = dest then { pr2' with timeoutEvent := false } else pr2' }

/-- What goes into the queue of an entry, which keeps `MAX_QUEUE_LENGTH` packets. -/
def enque (q : List DsdvData) (p : DsdvData) : List DsdvData := (q ++ [p]).drop ((q ++ [p]).length - 5)

/-- The packet goes out over the entry. -/
def send (dst : ℕ) (prte : RtableEnt) (p : DsdvData) : DsdvPacket :=
  .data { p with nextHop := if prte.metric > 1 then prte.hop else dst }

def forwardPacket (c : DsdvConfig) (a : DsdvAgent) (now : ℚ) (dst : ℕ) (p : DsdvData) : DsdvAgent × List DsdvPacket :=
  if c.diffSubnet dst then
    match (a.getEntry dst).filter (·.metric ≠ big) with
    | some prte => (a, [send dst prte p])
    | none =>
      match (a.getEntry c.baseStn).filter (·.metric ≠ big) with
      | some prte => (a, [send c.baseStn prte p])
      | none => (a, [])
  else
    match a.getEntry dst with
    | some prte =>
      if prte.metric ≠ big then (a, [send dst prte p]) else (a.addEntry { prte with q := some (enque (prte.q.getD []) p) }, [])
    | none =>
      (a.addEntry
        { RtableEnt.zero with
          dst := dst, hop := dst, metric := big, seqnum := 0, advertiseOkAt := now + 604800, changedAt := now, newSeqnumAt := now,
          wst := c.wst0, q := some [p] }, [])

/-- The end of `recv` for a data packet. -/
def routeData (c : DsdvConfig) (a : DsdvAgent) (now : ℚ) (p : DsdvData) : DsdvAgent × List DsdvPacket :=
  match p.daddr with
  | some dst => forwardPacket c a now dst p
  | none => (a, if p.saddr = a.myaddr then [.data p] else [])

/-- `recv` for a data packet. -/
def recvData (c : DsdvConfig) (a : DsdvAgent) (now : ℚ) (p : DsdvData) : DsdvAgent × List DsdvPacket :=
  if p.saddr = a.myaddr ∧ p.numForwards = 0 then routeData c a now { p with ttl := 32 }
  else if p.saddr = a.myaddr then (a, [])
  else if p.ttl - 1 = 0 then (a, [])
  else routeData c a now { p with ttl := p.ttl - 1 }

/-- The loop of `processUpdate` that gives the packets of a queue back to the agent; `none` if it does not end within so many turns. -/
def drain (c : DsdvConfig) (now : ℚ) (dst : ℕ) : ℕ → DsdvAgent → Option (DsdvAgent × List DsdvPacket)
  | 0, _ => none
  | fuel + 1, a =>
    match a.getEntry dst with
    | some prte =>
      match prte.q with
      | some (p :: rest) => do
        let first := recvData c (a.addEntry { prte with q := some rest }) now p
        let others ← drain c now dst fuel first.1
        return (others.1, first.2 ++ others.2)
      | some [] | none => some (a, [])
    | none => some (a, [])

/-- Turns that are enough for a queue of packets that come from elsewhere: each of them stays for at most its time to live. -/
def drainTurns (q : List DsdvData) : ℕ := (q.map fun p => p.ttl.toNat + 1).sum + 1

/-- The times of a route in an update. -/
def timed (c : DsdvConfig) (now : ℚ) (prte : Option RtableEnt) (rte : RtableEnt) : RtableEnt :=
  let rte := match prte with
    | some prte =>
      if prte.seqnum = rte.seqnum then { rte with wst := prte.wst, newSeqnumAt := prte.newSeqnumAt }
      else { rte with wst := c.alpha * prte.wst + (1 - c.alpha) * (prte.changedAt - prte.newSeqnumAt), newSeqnumAt := now }
    | none => { rte with wst := c.wst0, newSeqnumAt := now }
  { rte with advertiseOkAt := if rte.metric ≠ big ∧ (∀ old ∈ prte, old.metric ≠ big) then now + rte.wst * 2 else now }

/-- The decision whether to update the table: the agent, the route with its flags, and whether to trigger an update for it. -/
def decideRoute (a : DsdvAgent) (now : ℚ) (prte : Option RtableEnt) (rte : RtableEnt) : DsdvAgent × RtableEnt × Bool :=
  match prte with
  | none =>
    let rte := if rte.metric < big then { rte with advertMetric := true } else rte
    (a.addEntry rte, rte, rte.metric < big)
  | some prte =>
    if prte.seqnum = rte.seqnum then
      if rte.metric < prte.metric then
        let rte := { rte with advertMetric := rte.metric ≠ prte.lastAdvertisedMetric }
        (a.addEntry rte, rte, rte.metric ≠ prte.lastAdvertisedMetric)
      else (a, rte, false)
    else if prte.seqnum < rte.seqnum then
      let rte := { rte with advertSeqnum := true, advertMetric := rte.metric ≠ prte.lastAdvertisedMetric }
      (a.addEntry rte, rte, false)
    else if rte.metric = big ∧ prte.metric ≠ big then (a.addEntry { prte with advertiseOkAt := now, advertMetric := true }, rte, false)
    else (a, rte, false)

/-- The queued packets are sent, and the route is recorded with no queue. -/
def flush (c : DsdvConfig) (a : DsdvAgent) (now : ℚ) (rte : RtableEnt) : Option (DsdvAgent × List DsdvPacket) :=
  match rte.q with
  | some q =>
    if rte.metric ≠ big then
      (drain c now rte.dst (drainTurns q) a).map fun result => (result.1.addEntry { rte with q := none }, result.2)
    else some (a, [])
  | none => some (a, [])

/-- The metric of the route that an update gives. -/
def offered (ad : Advert) : ℕ := if ad.metric ≠ big then ad.metric + 1 else ad.metric

/-- The route in an update from a neighbor, as far as the packet and the old entry give it. -/
def heard (now : ℚ) (prte : Option RtableEnt) (saddr : ℕ) (ad : Advert) : RtableEnt :=
  { prte.getD .zero with
    dst := ad.dst, hop := saddr, metric := offered ad, seqnum := ad.seqnum, changedAt := now }

/-- The turn of `processUpdate` for one destination. -/
def processAdvert (c : DsdvConfig) (a : DsdvAgent) (now : ℚ) (saddr : ℕ) (ad : Advert) : Option (DsdvAgent × List DsdvPacket) :=
  if ad.dst = a.myaddr then some (a, [])
  else
    let prte := a.getEntry ad.dst
    let decision := a.decideRoute now prte (timed c now prte (heard now prte saddr ad))
    asserting (decision.2.2 = true → now ≤ decision.2.1.advertiseOkAt) (flush c decision.1 now decision.2.1)

def processAdverts (c : DsdvConfig) (a : DsdvAgent) (now : ℚ) (saddr : ℕ) : List Advert → Option (DsdvAgent × List DsdvPacket)
  | [] => some (a, [])
  | ad :: rest => do
    let first ← processAdvert c a now saddr ad
    let others ← processAdverts c first.1 now saddr rest
    return (others.1, first.2 ++ others.2)

/-- The timeout for the neighbor is set, in an entry that is made up where there is none. -/
def awaitNeighbor (c : DsdvConfig) (a : DsdvAgent) (now : ℚ) (saddr : ℕ) : DsdvAgent :=
  match a.getEntry saddr with
  | some prte => a.addEntry { prte with timeoutEvent := true }
  | none =>
    a.addEntry
      { RtableEnt.zero with
        dst := saddr, hop := saddr, metric := 1, seqnum := 0, advertiseOkAt := now + 604800, changedAt := now, newSeqnumAt := now,
        wst := c.wst0, timeoutEvent := true }

/-- `recv` for an update packet of another agent. -/
def processUpdate (c : DsdvConfig) (a : DsdvAgent) (now : ℚ) (u : DsdvUpdate) : Option (DsdvAgent × List DsdvPacket) :=
  if u.ttl - 1 = 0 then some (a, [])
  else (processAdverts c a now u.saddr u.adverts).map fun result => (awaitNeighbor c result.1 now u.saddr, result.2)

/-- `lost_link`. -/
def lostLink (c : DsdvConfig) (a : DsdvAgent) (now : ℚ) (p : DsdvData) : DsdvAgent × List DsdvPacket :=
  if c.useMac = false then (a, [])
  else
    match a.getEntry p.nextHop with
    | none => (a, [])
    | some prte => recvData c (if prte.timeoutEvent = true ∨ prte.metric ≠ big then a.timeout now prte.dst else a) now p

/-- The updates that go out. -/
def outgoing (u : Option DsdvUpdate) : List DsdvPacket := u.toList.map .update

inductive Event
  | update (u : DsdvUpdate)
  | data (p : DsdvData)
  | lostLink (p : DsdvData)
  | periodic
  | trigger
  | timeout (dest : ℕ)
deriving DecidableEq

def handle (c : DsdvConfig) (a : DsdvAgent) (now : ℚ) : Event → Option (DsdvAgent × List DsdvPacket)
  | .update u => processUpdate c a now u
  | .data p => some (recvData c a now p)
  | .lostLink p => some (a.lostLink c now p)
  | .periodic => (a.makeUpdate now true).map fun result => ({ result.1 with lasttup := now }, outgoing result.2)
  | .trigger =>
    if now < a.lasttup + 1 then some (a, [])
    else (a.makeUpdate now false).map fun result =>
      ({ result.1 with lasttup := if result.2.isSome then now else result.1.lasttup }, outgoing result.2)
  | .timeout dest =>
    match a.getEntry dest with
    | some prte => some (if prte.timeoutEvent = true then a.timeout now dest else a, [])
    | none => some (a, [])

end DsdvAgent

end Ns2
