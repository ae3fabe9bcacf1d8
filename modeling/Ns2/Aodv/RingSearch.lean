import Ns2.Aodv.BackedReplies
import Ns2.Library.Machine

namespace Ns2

open AODV AodvDiscipline

/-- What an agent does about a destination: a reply or a request from the destination renews the search, the route goes down,
a request goes out, or the search ends for a while, with so many packets for the destination left in the send buffer. -/
inductive SearchMark
  | replied (hopCount : ℕ)
  | heard (hopCount : ℕ)
  | fell (hops : ℕ)
  | request (time : ℚ) (ttl : ℤ) (perHop : ℚ)
  | dropped (time : ℚ) (left : ℕ)
deriving DecidableEq

/-- What the expanding ring search remembers: the TTL of the last request or the hop count that renewed the search, the hop count
of the route that went down last, how many requests have gone through the whole network, and when the next one may go out. -/
structure RingState where
  ttl : ℕ
  lastHops : Option ℕ
  wide : ℕ
  wait : Option ℚ

/-- The TTL after this TTL or hop count. -/
def ringTtl (last : ℕ) : ℕ := if last = 0 then 5 else if last < 7 then last + 2 else 30

/-- The time-out of a request, the `wide`-th through the whole network if not `0`. -/
def ringTimeout (ttl wide : ℕ) (perHop : ℚ) : ℚ := min (if wide > 0 then 2 * ttl * perHop * wide else 2 * ttl * perHop) 10

/-- The rule of the expanding ring search. -/
def ringSearch : Monitor RingState SearchMark where
  allows s
    | .request time ttl _ => (∀ t ∈ s.wait, t ≤ time) ∧ s.wide ≤ 3 ∧ ∀ h ∈ s.lastHops, ttl = ringTtl (max s.ttl h)
    | .dropped time left => (∀ t ∈ s.wait, t ≤ time) ∧ s.wide = 4 ∧ left = 0
    | .replied _ | .heard _ | .fell _ => True
  next s
    | .replied hopCount => { s with ttl := hopCount, wide := 0, wait := none }
    | .heard hopCount => if s.wait.isSome then { s with ttl := hopCount, wide := 0, wait := none } else s
    | .fell hops => { s with lastHops := some hops }
    | .request time ttl perHop =>
      let wide := if ttl = 30 then s.wide + 1 else s.wide
      { s with ttl := ttl.toNat, wide := wide, wait := some (time + ringTimeout ttl.toNat wide perHop) }
    | .dropped time _ => { s with wide := 0, wait := some (time + 10) }

def RingState.start : RingState := ⟨0, none, 0, none⟩

namespace AODV

/-- The entry for a destination, or the one that would be made for it. -/
def entry (a : AODV) (d : ℕ) : AodvRtEntry := (a.rtFind d).2

/-- The TTL of a request for a destination that this agent has sent for itself. -/
def ownTtl (i d : ℕ) (p : AodvPacket) : Option ℤ :=
  match p.body with
  | .request rq => if rq.src = i ∧ rq.dst = d then some p.ttl else none
  | .reply _ | .error _ | .hello _ | .data _ => none

/-- A route from the destination itself that an event brings. -/
def news (a : AODV) (d : ℕ) : Event → Option SearchMark
  | .recv p =>
    match p.body with
    | .reply rp => if rp.dst = d ∧ isBetter (a.entry d) rp.dstSeqno rp.hopCount then some (.replied rp.hopCount) else none
    | .request rq =>
      if rq.src = d ∧ TakesUp a rq ∧ isBetter (a.entry d) rq.srcSeqno rq.hopCount then some (.heard rq.hopCount) else none
    | .error _ | .hello _ | .data _ => none
  | .linkFailed _ | .broadcastTimer | .helloTimer | .neighborTimer | .routeCacheTimer | .localRepairTimer _ => none

/-- How many packets for a destination are in the send buffer. -/
def waiting (a : AODV) (d : ℕ) : ℕ := a.rqueue.countP fun q => q.1.daddr = some d

/-- What an event at an agent does about a destination. -/
def marks (a : AODV) (now : ℚ) (d : ℕ) (event : Event) (result : AODV × List AodvPacket) : List SearchMark :=
  (a.news d event).toList ++
    (if (a.entry d).flags ≠ .down ∧ (result.1.entry d).flags = .down then [.fell (a.entry d).hops] else []) ++
    (result.2.filterMap (ownTtl a.index d)).map (fun ttl => .request now ttl (a.entry d).perHopTime) ++
    if a.news d event = none ∧ (result.1.entry d).reqCnt < (a.entry d).reqCnt then [.dropped now (result.1.waiting d)] else []

end AODV

namespace AodvNetwork

/-- What a step does about destination `d` at node `i`. -/
def searchMarks (i d : ℕ) (net : AodvNetwork) (s : ℚ × AodvStep) : List SearchMark :=
  match net.event s.2 with
  | some (j, event) =>
    if j = i then
      match (net.node j).handle s.1 event with
      | some result => (net.node j).marks s.1 d event result
      | none => []
    else []
  | none => []

end AodvNetwork

variable {a b m : AODV} {rt old : AodvRtEntry} {p : AodvPacket} {ps out out' : List AodvPacket} {now : ℚ} {d dst saddr : ℕ} {rq : AodvRequest}
  {rp : AodvReply} {result : AODV × List AodvPacket}

/-- The entries agree in what the search goes by. -/
structure SameSearch (rt rt' : AodvRtEntry) : Prop where
  reqTimeout : rt'.reqTimeout = rt.reqTimeout
  reqCnt : rt'.reqCnt = rt.reqCnt
  reqLastTtl : rt'.reqLastTtl = rt.reqLastTtl
  lastHopCount : rt'.lastHopCount = rt.lastHopCount
  discLatency : rt'.discLatency = rt.discLatency

/-- The entries agree also in the route as far as it matters when it goes down. -/
structure Alike (rt rt' : AodvRtEntry) : Prop where
  search : SameSearch rt rt'
  hops : rt'.hops = rt.hops
  down : rt'.flags = .down ↔ rt.flags = .down

theorem SameSearch.refl (rt : AodvRtEntry) : SameSearch rt rt := ⟨rfl, rfl, rfl, rfl, rfl⟩

theorem SameSearch.trans {mid rt' : AodvRtEntry} (first : SameSearch rt mid) (second : SameSearch mid rt') : SameSearch rt rt' where
  reqTimeout := second.reqTimeout.trans first.reqTimeout
  reqCnt := second.reqCnt.trans first.reqCnt
  reqLastTtl := second.reqLastTtl.trans first.reqLastTtl
  lastHopCount := second.lastHopCount.trans first.lastHopCount
  discLatency := second.discLatency.trans first.discLatency

theorem SameSearch.perHopTime {rt' : AodvRtEntry} (same : SameSearch rt rt') : rt'.perHopTime = rt.perHopTime := by
  unfold AodvRtEntry.perHopTime
  rw [same.discLatency]

theorem Alike.refl (rt : AodvRtEntry) : Alike rt rt := ⟨.refl rt, rfl, Iff.rfl⟩

theorem Alike.trans {mid rt' : AodvRtEntry} (first : Alike rt mid) (second : Alike mid rt') : Alike rt rt' :=
  ⟨first.search.trans second.search, second.hops.trans first.hops, second.down.trans first.down⟩

namespace AODV

theorem entry_found (found : a.rtLookup d = some rt) : a.entry d = rt := by
  unfold entry rtFind
  rw [found]

theorem entry_congr (same : b.rtLookup d = a.rtLookup d) : b.entry d = a.entry d := by
  unfold entry rtFind
  rw [same]
  cases a.rtLookup d <;> rfl

theorem entry_rtFind (a : AODV) (d d' : ℕ) : (a.rtFind d').1.entry d = a.entry d := by
  by_cases here : d = d'
  · rw [here, entry_found (rtLookup_rtFind a d')]
    rfl
  · exact entry_congr (rtLookup_rtFind_ne a d' d here)

theorem entry_rtSet (rt : AodvRtEntry) (found : a.rtLookup dst = some old) (towards : rt.dst = dst) (d : ℕ) :
    (a.rtSet rt).entry d = if d = dst then rt else a.entry d := by
  subst towards
  split_ifs with here
  · refine entry_found ?_
    rw [rtLookup_rtSet, if_pos here, here, found, Option.map_some]
  · refine entry_congr ?_
    rw [rtLookup_rtSet, if_neg here]

theorem rtFind_index (a : AODV) (d : ℕ) : (a.rtFind d).1.index = a.index := by
  unfold rtFind
  cases a.rtLookup d <;> rfl

/-- Nothing happens about a destination. -/
structure Quiet (d : ℕ) (a : AODV) (result : AODV × List AodvPacket) : Prop where
  index : result.1.index = a.index
  alike : Alike (a.entry d) (result.1.entry d)
  silent : result.2.filterMap (ownTtl a.index d) = []

theorem Quiet.trans (first : Quiet d a (m, out)) (second : Quiet d m (b, out')) : Quiet d a (b, out ++ out') where
  index := second.index.trans first.index
  alike := first.alike.trans second.alike
  silent := by
    have later : out'.filterMap (ownTtl m.index d) = [] := second.silent
    rw [show m.index = a.index from first.index] at later
    rw [List.filterMap_append, first.silent, later, List.append_nil]

theorem Quiet.of_lookup (index : b.index = a.index) (same : b.rtLookup d = a.rtLookup d) (silent : out.filterMap (ownTtl a.index d) = []) :
    Quiet d a (b, out) := ⟨index, entry_congr same ▸ .refl _, silent⟩

theorem Quiet.idle (d : ℕ) (a : AODV) : Quiet d a (a, []) := .of_lookup rfl rfl rfl

theorem Quiet.of_rtable (index : b.index = a.index) (rtable : b.rtable = a.rtable) (silent : out.filterMap (ownTtl a.index d) = []) :
    Quiet d a (b, out) := by
  refine .of_lookup index ?_ silent
  unfold rtLookup
  rw [rtable]

theorem Quiet.rtFind (a : AODV) (d d' : ℕ) : Quiet d a ((a.rtFind d').1, []) :=
  ⟨rtFind_index a d', (entry_rtFind a d d').symm ▸ .refl _, rfl⟩

theorem Quiet.rtSet (rt : AodvRtEntry) (found : a.rtLookup dst = some old) (towards : rt.dst = dst) (alike : d = dst → Alike old rt) :
    Quiet d a (a.rtSet rt, []) := by
  refine ⟨rfl, ?_, rfl⟩
  rw [show (a.rtSet rt, ([] : List AodvPacket)).1.entry d = _ from entry_rtSet rt found towards d]
  split_ifs with here
  · rw [here, entry_found found]
    exact alike here
  · exact .refl _

theorem ownTtl_data (data : p.body.isData = true) (i d : ℕ) : ownTtl i d p = none := by
  unfold ownTtl
  cases body : p.body with
  | data numForwards => rfl
  | request rq =>
    rw [body] at data
    cases data
  | reply rp => rfl
  | error unreachable => rfl
  | hello rh => rfl

theorem silent_data (data : ∀ p ∈ ps, p.body.isData = true) (i d : ℕ) : ps.filterMap (ownTtl i d) = [] :=
  List.filterMap_eq_nil_iff.mpr fun p member => ownTtl_data (data p member) i d

theorem Touched.quiet {d' : ℕ} (touched : Touched now d' a b) (silent : out.filterMap (ownTtl a.index d) = []) : Quiet d a (b, out) := by
  by_cases here : d = d'
  · subst here
    rcases touched.here with same | ⟨rt, before, after⟩
    · exact .of_lookup touched.index same silent
    · refine ⟨touched.index, ?_, silent⟩
      rw [entry_found before, show (b, out).1.entry d = _ from entry_found after]
      exact ⟨⟨rfl, rfl, rfl, rfl, rfl⟩, rfl, Iff.rfl⟩
  · exact .of_lookup touched.index (touched.others d here) silent

end AODV

end Ns2
