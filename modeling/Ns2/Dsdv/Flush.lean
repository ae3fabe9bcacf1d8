import Mathlib.Algebra.Order.Group.Multiset
import Mathlib.Tactic.Abel
import Ns2.Dsdv.LoopFreedom

namespace Ns2

/-- A packet without what `recv` and `forwardPacket` write into it. -/
def DsdvData.body (p : DsdvData) : DsdvData := { p with ttl := 0, nextHop := 0 }

def DsdvPacket.body : DsdvPacket → Option DsdvData
  | .data p => some p.body
  | .update _ => none

namespace DsdvAgent

def bodies (ps : List DsdvData) : Multiset DsdvData := ps.map DsdvData.body

def sentBodies (ps : List DsdvPacket) : Multiset DsdvData := ps.filterMap DsdvPacket.body

/-- The packets that wait for a route to a destination. -/
def queued (a : DsdvAgent) (d : ℕ) : List DsdvData := ((a.getEntry d).bind RtableEnt.q).getD []

/-- The packets that `forwardPacket` frees, or drops from a queue that is full. -/
def forwardDrops (c : DsdvConfig) (a : DsdvAgent) (dst : ℕ) (p : DsdvData) : List DsdvData :=
  if c.diffSubnet dst then
    if ((a.getEntry dst).filter (·.metric ≠ big)).isSome ∨ ((a.getEntry c.baseStn).filter (·.metric ≠ big)).isSome then [] else [p]
  else
    match a.getEntry dst with
    | some prte =>
      if prte.metric ≠ big then [] else (prte.q.getD [] ++ [p]).take ((prte.q.getD [] ++ [p]).length - 5)
    | none => []

def routeDrops (c : DsdvConfig) (a : DsdvAgent) (p : DsdvData) : List DsdvData :=
  match p.daddr with
  | some dst => forwardDrops c a dst p
  | none => []

/-- The packets that `recv` drops on a data packet. -/
def recvDrops (c : DsdvConfig) (a : DsdvAgent) (p : DsdvData) : List DsdvData :=
  if p.saddr = a.myaddr ∧ p.numForwards = 0 then routeDrops c a { p with ttl := 32 }
  else if p.saddr = a.myaddr then [p]
  else if p.ttl - 1 = 0 then [p]
  else routeDrops c a { p with ttl := p.ttl - 1 }

/-- `drain` with the packets that are dropped. -/
def drainAll (c : DsdvConfig) (now : ℚ) (dst : ℕ) : ℕ → DsdvAgent → Option (DsdvAgent × List DsdvPacket × List DsdvData)
  | 0, _ => none
  | fuel + 1, a =>
    match a.getEntry dst with
    | some prte =>
      match prte.q with
      | some (p :: rest) => do
        let taken := a.addEntry { prte with q := some rest }
        let first := recvData c taken now p
        let others ← drainAll c now dst fuel first.1
        return (others.1, first.2 ++ others.2.1, recvDrops c taken p ++ others.2.2)
      | some [] | none => some (a, [], [])
    | none => some (a, [], [])

/-- `flush` with the packets that are dropped, where the loop is given so many turns. -/
def flushAll (c : DsdvConfig) (a : DsdvAgent) (now : ℚ) (turns : ℕ) (rte : RtableEnt) :
    Option (DsdvAgent × List DsdvPacket × List DsdvData) :=
  match rte.q with
  | some _ =>
    if rte.metric ≠ big then (drainAll c now rte.dst turns a).map fun result => (result.1.addEntry { rte with q := none }, result.2)
    else some (a, [], [])
  | none => some (a, [], [])

/-- The decision on a destination in an update. -/
def decided (c : DsdvConfig) (a : DsdvAgent) (now : ℚ) (saddr : ℕ) (ad : Advert) : DsdvAgent × RtableEnt × Bool :=
  a.decideRoute now (a.getEntry ad.dst) (timed c now (a.getEntry ad.dst) (heard now (a.getEntry ad.dst) saddr ad))

/-- The turn of `processUpdate` for one destination, with the packets that are dropped. -/
def turn (c : DsdvConfig) (a : DsdvAgent) (now : ℚ) (saddr turns : ℕ) (ad : Advert) : Option (DsdvAgent × List DsdvPacket × List DsdvData) :=
  if ad.dst = a.myaddr then some (a, [], []) else flushAll c (decided c a now saddr ad).1 now turns (decided c a now saddr ad).2.1

variable {a b : DsdvAgent} {c : DsdvConfig} {now : ℚ} {e x : RtableEnt} {d dst saddr turns : ℕ} {p : DsdvData} {q : List DsdvData}
  {ad : Advert} {result : DsdvAgent × List DsdvPacket × List DsdvData}

theorem drainAll_drain (turns : ℕ) (a : DsdvAgent) :
    (drainAll c now dst turns a).map (fun result => (result.1, result.2.1)) = drain c now dst turns a := by
  induction turns generalizing a with
  | zero => rfl
  | succ turns ih =>
    rw [drainAll, drain]
    cases a.getEntry dst with
    | none => rfl
    | some prte =>
      dsimp only
      cases prte.q with
      | none => rfl
      | some q =>
        cases q with
        | nil => rfl
        | cons p rest =>
          dsimp only
          rw [← ih]
          cases drainAll c now dst turns (recvData c (a.addEntry { prte with q := some rest }) now p).1 <;> rfl

/-- What `processUpdate` does for a destination is a turn. -/
theorem turn_of_processAdvert {given : DsdvAgent × List DsdvPacket} (done : processAdvert c a now saddr ad = some given) :
    ∃ turns dropped, a.turn c now saddr turns ad = some (given.1, given.2, dropped) := by
  unfold processAdvert at done
  unfold turn
  split_ifs at done ⊢ with own
  · cases Option.some.inj done
    exact ⟨0, [], rfl⟩
  have flushed : flush c (decided c a now saddr ad).1 now (decided c a now saddr ad).2.1 = some given := (asserting_eq_some done).2
  unfold flush at flushed
  unfold flushAll
  cases waiting : (decided c a now saddr ad).2.1.q with
  | none =>
    rw [waiting] at flushed
    cases Option.some.inj flushed
    exact ⟨0, [], rfl⟩
  | some q =>
    rw [waiting] at flushed
    dsimp only at flushed ⊢
    split_ifs at flushed ⊢ with valid
    · obtain ⟨drained, emptied, same⟩ := Option.map_eq_some_iff.mp flushed
      subst same
      rw [← drainAll_drain] at emptied
      obtain ⟨all, ended, same⟩ := Option.map_eq_some_iff.mp emptied
      subst same
      exact ⟨drainTurns q, all.2.2, by rw [ended]; rfl⟩
    · cases Option.some.inj flushed
      exact ⟨0, [], rfl⟩

section Conservation

theorem bodies_append (ps qs : List DsdvData) : bodies (ps ++ qs) = bodies ps + bodies qs := by
  unfold bodies
  rw [List.map_append, Multiset.coe_add]

theorem sentBodies_append (ps qs : List DsdvPacket) : sentBodies (ps ++ qs) = sentBodies ps + sentBodies qs := by
  unfold sentBodies
  rw [List.filterMap_append, Multiset.coe_add]

theorem queued_addEntry (a : DsdvAgent) (x : RtableEnt) (towards : x.dst = d) : (a.addEntry x).queued d = x.q.getD [] := by
  unfold queued
  rw [getEntry_addEntry, if_pos towards.symm, Option.bind_some]

theorem queued_found (found : a.getEntry d = some e) : a.queued d = e.q.getD [] := by
  unfold queued
  rw [found, Option.bind_some]

theorem queued_absent (absent : a.getEntry d = none) : a.queued d = [] := by
  unfold queued
  rw [absent, Option.bind_none, Option.getD_none]

/-- A packet towards a destination goes out, is dropped, or waits. -/
theorem forwardPacket_conserves (inside : c.diffSubnet d = false) (a : DsdvAgent) (p : DsdvData) :
    bodies ((forwardPacket c a now d p).1.queued d) + sentBodies (forwardPacket c a now d p).2 + bodies (forwardDrops c a d p) =
      bodies (a.queued d) + {p.body} := by
  unfold forwardPacket forwardDrops
  rw [inside, if_neg Bool.false_ne_true, if_neg Bool.false_ne_true]
  cases found : a.getEntry d with
  | none =>
    dsimp only
    rw [queued_absent found, queued_addEntry]
    · rfl
    · rfl
  | some prte =>
    dsimp only
    by_cases valid : prte.metric ≠ big
    · rw [if_pos valid, if_pos valid]
      have out : sentBodies [send d prte p] = {p.body} := rfl
      have none' : bodies [] = 0 := rfl
      rw [out, none', add_zero]
    · have here : prte.dst = d := getEntry_dst found
      rw [if_neg valid, if_neg valid, queued_addEntry a { prte with q := some (enque (prte.q.getD []) p) } here, queued_found found]
      dsimp only [Option.getD_some]
      have split : bodies (prte.q.getD [] ++ [p]) = _ := congrArg bodies (List.take_append_drop ((prte.q.getD [] ++ [p]).length - 5) _).symm
      rw [bodies_append, bodies_append] at split
      have last : bodies [p] = {p.body} := rfl
      have silent : sentBodies [] = 0 := rfl
      unfold enque
      rw [← last, split, silent]
      abel

/-- `recv` loses or doubles no packet towards a destination. -/
theorem recvData_conserves (inside : c.diffSubnet d = false) (towards : p.daddr = some d) :
    bodies ((recvData c a now p).1.queued d) + sentBodies (recvData c a now p).2 + bodies (recvDrops c a p) =
      bodies (a.queued d) + {p.body} := by
  have routed (p' : DsdvData) (towards' : p'.daddr = some d) :
      bodies ((routeData c a now p').1.queued d) + sentBodies (routeData c a now p').2 + bodies (routeDrops c a p') =
        bodies (a.queued d) + {p'.body} := by
    unfold routeData routeDrops
    rw [towards']
    exact forwardPacket_conserves inside a p'
  have dropped : bodies (a.queued d) + sentBodies [] + bodies [p] = bodies (a.queued d) + {p.body} := by
    have silent : sentBodies [] = 0 := rfl
    rw [silent, add_zero]
    rfl
  unfold recvData recvDrops
  split_ifs
  · exact routed { p with ttl := 32 } towards
  · exact dropped
  · exact dropped
  · exact routed { p with ttl := p.ttl - 1 } towards

/-- When the loop ends, each packet of the queue has gone out or has been dropped. -/
theorem drainAll_spec (inside : c.diffSubnet e.dst = false) (all : ∀ p' ∈ q, p'.daddr = some e.dst)
    (drained : drainAll c now e.dst turns (a.addEntry { e with q := some q }) = some result) :
    result.1 = a.addEntry { e with q := some [] } ∧ bodies q = sentBodies result.2.1 + bodies result.2.2 := by
  induction turns generalizing q result with
  | zero => cases drained
  | succ turns ih =>
    have found : (a.addEntry { e with q := some q }).getEntry e.dst = some { e with q := some q } := by
      rw [getEntry_addEntry, if_pos rfl]
    rw [drainAll, found] at drained
    dsimp only at drained
    cases q with
    | nil =>
      cases Option.some.inj drained
      exact ⟨rfl, rfl⟩
    | cons p rest =>
      obtain ⟨first, others⟩ := List.forall_mem_cons.mp all
      dsimp only at drained
      rw [addEntry_addEntry a (rfl : ({ e with q := some (p :: rest) } : RtableEnt).dst = { e with q := some rest }.dst)] at drained
      have conserved : bodies ((recvData c (a.addEntry { e with q := some rest }) now p).1.queued e.dst) + _ + _ = _ :=
        recvData_conserves inside first
      obtain ⟨q', given, all'⟩ : ∃ q', (recvData c (a.addEntry { e with q := some rest }) now p).1 = a.addEntry { e with q := some q' } ∧
          ∀ p' ∈ q', p'.daddr = some e.dst := recvData_queued inside others first
      have waiting : (a.addEntry { e with q := some rest }).queued e.dst = rest := queued_addEntry a { e with q := some rest } rfl
      have left : (a.addEntry { e with q := some q' }).queued e.dst = q' := queued_addEntry a { e with q := some q' } rfl
      rw [given, left, waiting] at conserved
      rw [given] at drained
      obtain ⟨last, later, joined⟩ := Option.bind_eq_some_iff.mp drained
      cases Option.some.inj joined
      obtain ⟨ended, onward⟩ := ih all' later
      refine ⟨ended, ?_⟩
      have whole : bodies (p :: rest) = bodies rest + {p.body} := by
        rw [← List.singleton_append, bodies_append, add_comm]
        rfl
      rw [whole, ← conserved, onward, sentBodies_append, bodies_append]
      abel

end Conservation

section Loop

/-- Over a valid entry a packet does not come back into the queue. -/
theorem recvData_valid (inside : c.diffSubnet d = false) (towards : p.daddr = some d) (found : a.getEntry d = some e)
    (valid : e.metric ≠ big) : (recvData c a now p).1 = a := by
  have routed (p' : DsdvData) (towards' : p'.daddr = some d) : (routeData c a now p').1 = a := by
    unfold routeData
    rw [towards']
    dsimp only
    rw [forwardPacket, inside, if_neg Bool.false_ne_true, found]
    dsimp only
    rw [if_pos valid]
  unfold recvData
  split_ifs
  · exact routed { p with ttl := 32 } towards
  · rfl
  · rfl
  · exact routed { p with ttl := p.ttl - 1 } towards

/-- Over a valid entry the loop ends. -/
theorem drainAll_ends (inside : c.diffSubnet e.dst = false) (all : ∀ p' ∈ q, p'.daddr = some e.dst) (valid : e.metric ≠ big) :
    ∃ result, drainAll c now e.dst (q.length + 1) (a.addEntry { e with q := some q }) = some result := by
  induction q with
  | nil =>
    rw [drainAll, getEntry_addEntry, if_pos rfl]
    exact ⟨_, rfl⟩
  | cons p rest ih =>
    obtain ⟨first, others⟩ := List.forall_mem_cons.mp all
    obtain ⟨result, ended⟩ := ih others
    have found : (a.addEntry { e with q := some rest }).getEntry e.dst = some { e with q := some rest } := by
      rw [getEntry_addEntry, if_pos rfl]
    rw [List.length_cons, drainAll, getEntry_addEntry, if_pos rfl]
    dsimp only
    rw [addEntry_addEntry a (rfl : ({ e with q := some (p :: rest) } : RtableEnt).dst = { e with q := some rest }.dst),
      recvData_valid inside first found valid, ended]
    exact ⟨_, rfl⟩

/-- Packets of the agent itself that have not been forwarded go round for ever where there is no route. -/
theorem drainAll_own (inside : c.diffSubnet e.dst = false) (lost : e.metric = big) (waiting : q ≠ [])
    (own : ∀ p ∈ q, p.saddr = a.myaddr ∧ p.numForwards = 0 ∧ p.daddr = some e.dst) (turns : ℕ) :
    drainAll c now e.dst turns (a.addEntry { e with q := some q }) = none := by
  induction turns generalizing q with
  | zero => rfl
  | succ turns ih =>
    rw [drainAll, getEntry_addEntry, if_pos rfl]
    cases q with
    | nil => exact absurd rfl waiting
    | cons p rest =>
      obtain ⟨⟨mine, fresh, towards⟩, others⟩ := List.forall_mem_cons.mp own
      dsimp only
      rw [addEntry_addEntry a (rfl : ({ e with q := some (p :: rest) } : RtableEnt).dst = { e with q := some rest }.dst)]
      have again : (recvData c (a.addEntry { e with q := some rest }) now p).1 =
          a.addEntry { e with q := some (enque rest { p with ttl := 32 }) } := by
        have here : p.saddr = (a.addEntry { e with q := some rest }).myaddr := mine
        rw [recvData, if_pos ⟨here, fresh⟩, routeData]
        dsimp only
        rw [towards]
        dsimp only
        rw [forwardPacket, inside, if_neg Bool.false_ne_true, getEntry_addEntry, if_pos rfl]
        dsimp only
        rw [if_neg (not_not.mpr lost)]
        exact addEntry_addEntry a rfl
      rw [again, ih]
      · rfl
      · unfold enque
        rw [ne_eq, List.drop_eq_nil_iff, List.length_append, List.length_singleton]
        omega
      · intro p' member
        rcases mem_enque member with old | new
        · exact others p' old
        · rw [new]
          exact ⟨mine, fresh, towards⟩

/-- The packets that are left in the queue of an entry are taken out of it also where the table still has another entry. -/
theorem drainAll_found (found : a.getEntry d = some e) (waiting : e.q = some q) (some' : q ≠ []) (turns : ℕ) :
    drainAll c now d turns a = drainAll c now d turns (a.addEntry { e with q := some q }) := by
  have here : e.dst = d := getEntry_dst found
  cases turns with
  | zero => rfl
  | succ turns =>
    cases q with
    | nil => exact absurd rfl some'
    | cons p rest =>
      rw [drainAll, drainAll, found, getEntry_addEntry, if_pos here.symm]
      dsimp only
      rw [waiting]
      dsimp only
      rw [addEntry_addEntry a (rfl : ({ e with q := some (p :: rest) } : RtableEnt).dst = { e with q := some rest }.dst)]

end Loop

section Turn

/-- What waits in an entry waits for a route, and an entry in which nothing waits has no queue. -/
structure Waits (c : DsdvConfig) (e : RtableEnt) : Prop where
  queue : QueueOk c e
  some : e.q ≠ .some []

def Queues (c : DsdvConfig) (a : DsdvAgent) : Prop := ∀ d e, a.getEntry d = some e → Waits c e

/-- The sequence number of an entry that packets wait in. -/
def waitingAt (a : DsdvAgent) (d : ℕ) : Option ℕ := (a.getEntry d).bind fun e => if e.q.isSome then some e.seqnum else none

/-- The route in an update replaces the entry. -/
def Taken (e : RtableEnt) (ad : Advert) : Prop := e.seqnum < ad.seqnum ∨ e.seqnum = ad.seqnum ∧ offered ad < e.metric

/-- What the decision makes of the table. -/
inductive Decision (ad : Advert) (a : DsdvAgent) (rte : RtableEnt) : DsdvAgent → Prop
  | taken (better : ∀ e, a.getEntry ad.dst = some e → Taken e ad) : Decision ad a rte (a.addEntry rte)
  | told (e x : RtableEnt) (found : a.getEntry ad.dst = some e) (worse : ¬Taken e ad) (same : SameRoute e x) (queue : x.q = e.q)
      (lost : offered ad = big) : Decision ad a rte (a.addEntry x)
  | ignored (e : RtableEnt) (found : a.getEntry ad.dst = some e) (worse : ¬Taken e ad) : Decision ad a rte a

theorem decided_spec (c : DsdvConfig) (a : DsdvAgent) (now : ℚ) (saddr : ℕ) (ad : Advert) :
    Decision ad a (decided c a now saddr ad).2.1 (decided c a now saddr ad).1 ∧ Learned saddr ad (decided c a now saddr ad).2.1 ∧
      (decided c a now saddr ad).2.1.q = ((a.getEntry ad.dst).getD .zero).q := by
  unfold decided
  obtain ⟨learned, queue⟩ := heard_timed c now saddr ad (a.getEntry ad.dst)
  generalize timed c now (a.getEntry ad.dst) (heard now (a.getEntry ad.dst) saddr ad) = rte at learned queue ⊢
  have metric : rte.metric = offered ad := congrArg RouteOrder.Route.hops learned.route
  have seqnum : rte.seqnum = ad.seqnum := congrArg RouteOrder.Route.seqno learned.route
  unfold decideRoute
  cases found : a.getEntry ad.dst with
  | none =>
    rw [found] at queue
    have fresh : ∀ e, a.getEntry ad.dst = some e → Taken e ad := fun e some => by
      rw [found] at some
      cases some
    dsimp only
    split_ifs
    · exact ⟨.taken fresh, ⟨learned.dst, learned.route⟩, queue⟩
    · exact ⟨.taken fresh, learned, queue⟩
  | some prte =>
    rw [found] at queue
    have only (better : Taken prte ad) : ∀ e, a.getEntry ad.dst = some e → Taken e ad := fun e some => by
      cases Option.some.inj (found.symm.trans some)
      exact better
    dsimp only
    split_ifs with equal less newer lost
    · exact ⟨.taken (only (Or.inr ⟨equal.trans seqnum, metric ▸ less⟩)), ⟨learned.dst, learned.route⟩, queue⟩
    · refine ⟨.ignored prte found ?_, learned, queue⟩
      unfold Taken
      omega
    · exact ⟨.taken (only (Or.inl (seqnum ▸ newer))), ⟨learned.dst, learned.route⟩, queue⟩
    · refine ⟨.told prte _ found ?_ ⟨rfl, rfl⟩ rfl (metric.symm.trans lost.1), learned, queue⟩
      unfold Taken
      omega
    · refine ⟨.ignored prte found ?_, learned, queue⟩
      unfold Taken
      omega

theorem Decision.myaddr {rte : RtableEnt} (decision : Decision ad a rte b) : b.myaddr = a.myaddr := by
  cases decision <;> rfl

theorem Decision.others {rte : RtableEnt} (decision : Decision ad a rte b) (towards : rte.dst = ad.dst) (other : d ≠ ad.dst) :
    b.getEntry d = a.getEntry d := by
  cases decision with
  | taken better => rw [getEntry_addEntry, towards, if_neg other]
  | told e x found worse same queue lost => rw [getEntry_addEntry, same.dst, getEntry_dst found, if_neg other]
  | ignored e found worse => rfl

/-- After the decision the entry for the destination is the route in the update or the old one, with the old queue. -/
theorem Decision.entry {rte : RtableEnt} (decision : Decision ad a rte b) (towards : rte.dst = ad.dst) :
    (b.getEntry ad.dst = some rte ∧ ∀ e, a.getEntry ad.dst = some e → Taken e ad) ∨
      ∃ e x, a.getEntry ad.dst = some e ∧ ¬Taken e ad ∧ b.getEntry ad.dst = some x ∧ SameRoute e x ∧ x.q = e.q := by
  cases decision with
  | taken better =>
    rw [getEntry_addEntry, if_pos towards.symm]
    exact Or.inl ⟨rfl, better⟩
  | told e x found worse same queue lost =>
    refine Or.inr ⟨e, x, found, worse, ?_, same, queue⟩
    rw [getEntry_addEntry, if_pos (same.dst.trans (getEntry_dst found)).symm]
  | ignored e found worse => exact Or.inr ⟨e, e, found, worse, found, ⟨rfl, rfl⟩, rfl⟩

theorem Decision.replaced {rte : RtableEnt} (decision : Decision ad a rte b) (towards : rte.dst = ad.dst) (here : x.dst = ad.dst) :
    b.addEntry x = a.addEntry x := by
  cases decision with
  | taken better => exact addEntry_addEntry a (towards.trans here.symm)
  | told e y found worse same queue lost => exact addEntry_addEntry a (same.dst.trans ((getEntry_dst found).trans here.symm))
  | ignored e found worse => rfl

/-- A turn leaves the decision as it is, or it empties the queue and stores the route in the update. -/
theorem turn_spec (queues : Queues c a) (other : ad.dst ≠ a.myaddr) (done : a.turn c now saddr turns ad = some result) :
    (result = ((decided c a now saddr ad).1, [], []) ∧ ((decided c a now saddr ad).2.1.q = none ∨ offered ad = big)) ∨
      ∃ e q, a.getEntry ad.dst = some e ∧ e.q = some q ∧ offered ad ≠ big ∧
        result.1 = a.addEntry { (decided c a now saddr ad).2.1 with q := none } ∧
        bodies q = sentBodies result.2.1 + bodies result.2.2 := by
  obtain ⟨decision, learned, queue⟩ := decided_spec c a now saddr ad
  unfold turn at done
  rw [if_neg other] at done
  generalize (decided c a now saddr ad).1 = m at decision done ⊢
  generalize (decided c a now saddr ad).2.1 = rte at decision learned queue done ⊢
  have metric : rte.metric = offered ad := congrArg RouteOrder.Route.hops learned.route
  unfold flushAll at done
  cases waiting : rte.q with
  | none =>
    rw [waiting] at done
    cases Option.some.inj done
    exact Or.inl ⟨rfl, Or.inl rfl⟩
  | some q =>
    rw [waiting] at done queue
    dsimp only at done
    split_ifs at done with valid
    · refine Or.inr ?_
      obtain ⟨drained, ended, same⟩ := Option.map_eq_some_iff.mp done
      subst same
      cases found : a.getEntry ad.dst with
      | none =>
        rw [found] at queue
        cases queue
      | some e =>
        rw [found] at queue
        have waits := queues ad.dst e found
        obtain ⟨lost, inside, all⟩ := waits.queue q queue.symm
        have some' : q ≠ [] := fun empty => waits.some (queue.symm.trans (congrArg some empty))
        have towards : e.dst = ad.dst := getEntry_dst found
        obtain ⟨e', found', waiting'⟩ : ∃ e', m.getEntry ad.dst = some e' ∧ e'.q = some q := by
          rcases decision.entry learned.dst with ⟨here, better⟩ | ⟨e₀, x, found₀, worse, here, same, kept⟩
          · exact ⟨rte, here, waiting⟩
          · cases Option.some.inj (found.symm.trans found₀)
            exact ⟨x, here, kept.trans queue.symm⟩
        have towards' : e'.dst = ad.dst := getEntry_dst found'
        rw [learned.dst, drainAll_found found' waiting' some', ← towards'] at ended
        rw [towards] at inside all
        obtain ⟨left, conserved⟩ := drainAll_spec (towards'.symm ▸ inside) (towards'.symm ▸ all) ended
        refine ⟨e, q, rfl, queue.symm, metric ▸ valid, ?_, conserved⟩
        dsimp only
        rw [left, addEntry_addEntry m (towards'.trans learned.dst.symm : ({ e' with q := some [] } : RtableEnt).dst = { rte with q := none }.dst)]
        exact decision.replaced learned.dst learned.dst
    · cases Option.some.inj done
      exact Or.inl ⟨rfl, Or.inr (metric.symm.trans (not_not.mp valid))⟩

/-- Where the route in the update is taken the loop ends. -/
theorem turn_ends (queues : Queues c a) (safe : ∀ e, a.getEntry ad.dst = some e → e.q.isSome = true → offered ad = big ∨ Taken e ad) :
    ∃ turns result, a.turn c now saddr turns ad = some result := by
  obtain ⟨decision, learned, queue⟩ := decided_spec c a now saddr ad
  unfold turn
  split_ifs with own
  · exact ⟨0, _, rfl⟩
  generalize (decided c a now saddr ad).1 = m at decision ⊢
  generalize (decided c a now saddr ad).2.1 = rte at decision learned queue ⊢
  have metric : rte.metric = offered ad := congrArg RouteOrder.Route.hops learned.route
  unfold flushAll
  cases waiting : rte.q with
  | none => exact ⟨0, _, rfl⟩
  | some q =>
    rw [waiting] at queue
    dsimp only
    split_ifs with valid
    · cases found : a.getEntry ad.dst with
      | none =>
        rw [found] at queue
        cases queue
      | some e =>
        rw [found] at queue
        obtain ⟨lost, inside, all⟩ := (queues ad.dst e found).queue q queue.symm
        have towards : rte.dst = e.dst := learned.dst.trans (getEntry_dst found).symm
        have taken : Taken e ad := (safe e found (Option.isSome_iff_exists.mpr ⟨q, queue.symm⟩)).resolve_left (metric ▸ valid)
        have stored : m = a.addEntry { rte with q := some q } := by
          rw [← waiting]
          cases decision with
          | taken better => rfl
          | told e₀ x found₀ worse same kept lost' => exact absurd (metric.trans lost') valid
          | ignored e₀ found₀ worse =>
            cases Option.some.inj (found.symm.trans found₀)
            exact absurd taken worse
        rw [stored]
        rw [← towards] at inside all
        obtain ⟨result, ended⟩ : ∃ result, drainAll c now rte.dst (q.length + 1) (a.addEntry { rte with q := some q }) = some result :=
          drainAll_ends inside all valid
        exact ⟨q.length + 1, _, congrArg (Option.map _) ended⟩
    · exact ⟨0, _, rfl⟩

/-- Packets of the agent itself go round for ever when the update gives them an older route. -/
theorem turn_circles (queues : Queues c a) (other : ad.dst ≠ a.myaddr) (found : a.getEntry ad.dst = some e) (waiting : e.q = some q)
    (own : ∀ p ∈ q, p.saddr = a.myaddr ∧ p.numForwards = 0) (worse : ¬Taken e ad) (valid : offered ad ≠ big) (turns : ℕ) :
    a.turn c now saddr turns ad = none := by
  obtain ⟨decision, learned, queue⟩ := decided_spec c a now saddr ad
  have metric : (decided c a now saddr ad).2.1.metric = offered ad := congrArg RouteOrder.Route.hops learned.route
  have stays : (decided c a now saddr ad).1 = a := by
    generalize (decided c a now saddr ad).1 = m at decision ⊢
    cases decision with
    | taken better => exact absurd (better e found) worse
    | told e₀ x found₀ worse₀ same kept lost => exact absurd lost valid
    | ignored e₀ found₀ worse₀ => rfl
  have here : e.dst = ad.dst := getEntry_dst found
  have waits := queues ad.dst e found
  obtain ⟨lost, inside, all⟩ := waits.queue q waiting
  rw [found, Option.getD_some, waiting] at queue
  unfold turn flushAll
  rw [if_neg other, queue, stays]
  dsimp only
  rw [if_pos (metric ▸ valid), learned.dst, drainAll_found found waiting fun empty => waits.some (waiting.trans (congrArg some empty)),
    ← here, drainAll_own inside lost (fun empty => waits.some (waiting.trans (congrArg some empty)))
      fun p member => ⟨(own p member).1, (own p member).2, all p member⟩]
  rfl

def unqueued (e : RtableEnt) : RtableEnt := { e with q := none }

/-- The packets for the destination are conserved, and the entry for it is the one that the decision chose. -/
structure Flushed (c : DsdvConfig) (a : DsdvAgent) (now : ℚ) (saddr : ℕ) (ad : Advert)
    (result : DsdvAgent × List DsdvPacket × List DsdvData) : Prop where
  conserved : bodies (a.queued ad.dst) = sentBodies result.2.1 + bodies result.2.2 + bodies (result.1.queued ad.dst)
  chosen : (result.1.getEntry ad.dst).map unqueued =
    ((if ad.dst = a.myaddr then a else (decided c a now saddr ad).1).getEntry ad.dst).map unqueued
  others : ∀ d, d ≠ ad.dst → result.1.getEntry d = a.getEntry d

theorem turn_myaddr (queues : Queues c a) (done : a.turn c now saddr turns ad = some result) : result.1.myaddr = a.myaddr := by
  by_cases own : ad.dst = a.myaddr
  · unfold turn at done
    rw [if_pos own] at done
    cases Option.some.inj done
    rfl
  · rcases turn_spec queues own done with ⟨same, _⟩ | ⟨e, q, _, _, _, left, _⟩
    · rw [same]
      exact (decided_spec c a now saddr ad).1.myaddr
    · rw [left]
      rfl

theorem turn_others (queues : Queues c a) (done : a.turn c now saddr turns ad = some result) (away : d ≠ ad.dst) :
    result.1.getEntry d = a.getEntry d := by
  by_cases own : ad.dst = a.myaddr
  · unfold turn at done
    rw [if_pos own] at done
    cases Option.some.inj done
    rfl
  · obtain ⟨decision, learned, _⟩ := decided_spec c a now saddr ad
    rcases turn_spec queues own done with ⟨same, _⟩ | ⟨e, q, _, _, _, left, _⟩
    · rw [same]
      exact decision.others learned.dst away
    · have towards : ({ (decided c a now saddr ad).2.1 with q := none } : RtableEnt).dst = ad.dst := learned.dst
      rw [left, getEntry_addEntry, towards, if_neg away]

/-- The queue of the destination after a decision that leaves it as it is. -/
theorem Decision.queued {rte : RtableEnt} (decision : Decision ad a rte b) (towards : rte.dst = ad.dst)
    (queue : rte.q = ((a.getEntry ad.dst).getD .zero).q) : b.queued ad.dst = a.queued ad.dst := by
  rcases decision.entry towards with ⟨here, _⟩ | ⟨e, x, found, _, here, _, kept⟩
  · rw [queued_found here, queue]
    cases found : a.getEntry ad.dst with
    | none =>
      rw [queued_absent found]
      rfl
    | some e =>
      rw [queued_found found]
      rfl
  · rw [queued_found here, queued_found found, kept]

/-- Whatever a turn does, it loses or doubles no packet that waits for the destination. -/
theorem turn_conserves (queues : Queues c a) (done : a.turn c now saddr turns ad = some result) :
    bodies (a.queued ad.dst) = sentBodies result.2.1 + bodies result.2.2 + bodies (result.1.queued ad.dst) := by
  have silent (ps : List DsdvData) : sentBodies [] + bodies [] + bodies ps = bodies ps := by
    have nothing : sentBodies [] + bodies [] = 0 := rfl
    rw [nothing, zero_add]
  by_cases own : ad.dst = a.myaddr
  · unfold turn at done
    rw [if_pos own] at done
    cases Option.some.inj done
    exact (silent _).symm
  · obtain ⟨decision, learned, queue⟩ := decided_spec c a now saddr ad
    rcases turn_spec queues own done with ⟨same, _⟩ | ⟨e, q, found, waiting, _, left, conserved⟩
    · rw [same]
      dsimp only
      rw [silent, decision.queued learned.dst queue]
    · have here : ({ (decided c a now saddr ad).2.1 with q := none } : RtableEnt).dst = ad.dst := learned.dst
      have none' : bodies [] = 0 := rfl
      rw [queued_found found, waiting, Option.getD_some, conserved, left, queued_addEntry a _ here]
      dsimp only [Option.getD_none]
      rw [none', add_zero]

/-- A turn stores what the decision chose exactly if it stores a valid route for waiting packets only when the route is taken. -/
theorem turn_chosen_iff (queues : Queues c a) (other : ad.dst ≠ a.myaddr) (done : a.turn c now saddr turns ad = some result) :
    (result.1.getEntry ad.dst).map unqueued = ((decided c a now saddr ad).1.getEntry ad.dst).map unqueued ↔
      ∀ e, a.getEntry ad.dst = some e → e.q.isSome = true → offered ad = big ∨ Taken e ad := by
  obtain ⟨decision, learned, queue⟩ := decided_spec c a now saddr ad
  rcases turn_spec queues other done with ⟨same, idle⟩ | ⟨e, q, found, waiting, valid, left, _⟩
  · refine iff_of_true (by rw [same]) fun e found waiting => idle.elim (fun empty => ?_) Or.inl
    rw [queue, found] at empty
    rw [Option.getD_some] at empty
    rw [empty] at waiting
    cases waiting
  · have here : ({ (decided c a now saddr ad).2.1 with q := none } : RtableEnt).dst = ad.dst := learned.dst
    have metric : (decided c a now saddr ad).2.1.metric = offered ad := congrArg RouteOrder.Route.hops learned.route
    rw [left, getEntry_addEntry, if_pos here.symm]
    constructor
    · intro chosen e' found' _
      cases Option.some.inj (found.symm.trans found')
      refine Or.inr (Classical.byContradiction fun worse' => ?_)
      rcases decision.entry learned.dst with ⟨_, better⟩ | ⟨e₀, x, found₀, worse, stored, same, _⟩
      · exact worse' (better e found)
      · cases Option.some.inj (found.symm.trans found₀)
        rw [stored, Option.map_some, Option.map_some] at chosen
        have alike : (unqueued _).metric = (unqueued x).metric := congrArg RtableEnt.metric (Option.some.inj chosen)
        have equal : (decided c a now saddr ad).2.1.metric = x.metric := alike
        have old : x.metric = e.metric := congrArg RouteOrder.Route.hops same.route
        exact valid (metric.symm.trans (equal.trans (old.trans ((queues ad.dst e found).queue q waiting).1)))
    · intro safe
      have taken := (safe e found (Option.isSome_iff_exists.mpr ⟨q, waiting⟩)).resolve_left valid
      rcases decision.entry learned.dst with ⟨stored, _⟩ | ⟨e₀, x, found₀, worse, _, _, _⟩
      · rw [stored]
        rfl
      · cases Option.some.inj (found.symm.trans found₀)
        exact absurd taken worse

theorem Queues.addEntry (queues : Queues c a) (ok : Waits c x) : Queues c (a.addEntry x) := by
  intro d e found
  rw [getEntry_addEntry] at found
  split_ifs at found
  · exact Option.some.inj found ▸ ok
  · exact queues d e found

theorem Waits.same (ok : Waits c e) (same : SameRoute e x) (queue : x.q = e.q) : Waits c x :=
  ⟨DsdvNetwork.queueOk_same ok.queue same queue, queue ▸ ok.some⟩

theorem Waits.empty (empty : x.q = none) : Waits c x := by
  refine ⟨fun q waiting => ?_, ?_⟩
  · rw [empty] at waiting
    cases waiting
  · rw [empty]
    exact (Option.some_ne_none []).symm

theorem turn_queues (queues : Queues c a) (done : a.turn c now saddr turns ad = some result) : Queues c result.1 := by
  by_cases own : ad.dst = a.myaddr
  · unfold turn at done
    rw [if_pos own] at done
    cases Option.some.inj done
    exact queues
  · obtain ⟨decision, learned, queue⟩ := decided_spec c a now saddr ad
    rcases turn_spec queues own done with ⟨same, idle⟩ | ⟨e, q, found, waiting, valid, left, _⟩
    · rw [same]
      generalize (decided c a now saddr ad).1 = m at decision ⊢
      generalize (decided c a now saddr ad).2.1 = rte at decision learned queue idle
      cases decision with
      | taken better =>
        refine queues.addEntry ?_
        cases found : a.getEntry ad.dst with
        | none =>
          rw [found] at queue
          exact .empty queue
        | some e =>
          rw [found] at queue
          rcases idle with empty | lost
          · exact .empty empty
          · have waits := queues ad.dst e found
            refine ⟨fun q waiting => ?_, fun empty => waits.some (queue.symm.trans empty)⟩
            obtain ⟨_, inside, all⟩ := waits.queue q (queue.symm.trans waiting)
            rw [getEntry_dst found, ← learned.dst] at inside all
            exact ⟨(congrArg RouteOrder.Route.hops learned.route).trans lost, inside, all⟩
      | told e x found worse same kept lost => exact queues.addEntry ((queues ad.dst e found).same same kept)
      | ignored e found worse => exact queues
    · rw [left]
      exact queues.addEntry (.empty rfl)

/-- What a turn does to the entry that packets wait in. -/
theorem turn_waitingAt (queues : Queues c a) (other : ad.dst ≠ a.myaddr) (done : a.turn c now saddr turns ad = some result) :
    result.1.waitingAt ad.dst = if offered ad = big then (a.waitingAt ad.dst).map (max · ad.seqnum) else none := by
  obtain ⟨decision, learned, queue⟩ := decided_spec c a now saddr ad
  have seqnum : (decided c a now saddr ad).2.1.seqnum = ad.seqnum := congrArg RouteOrder.Route.seqno learned.route
  unfold waitingAt
  rcases turn_spec queues other done with ⟨same, idle⟩ | ⟨e, q, found, waiting, valid, left, _⟩
  · rw [same]
    dsimp only
    rcases decision.entry learned.dst with ⟨here, better⟩ | ⟨e, x, found, worse, here, same', kept⟩
    · rw [here, Option.bind_some, queue, seqnum]
      cases found : a.getEntry ad.dst with
      | none =>
        rw [Option.bind_none, Option.map_none, ite_self]
        rfl
      | some e =>
        rw [Option.getD_some, Option.bind_some]
        rw [queue, found, Option.getD_some] at idle
        cases waiting : e.q with
        | none => simp
        | some q =>
          have lost := idle.resolve_left (by rw [waiting]; exact Option.some_ne_none q)
          have metric : e.metric = big := ((queues ad.dst e found).queue q waiting).1
          have newer : e.seqnum < ad.seqnum := (better e found).resolve_right fun equal => by omega
          rw [if_pos lost, Option.isSome_some, if_pos rfl, if_pos rfl, Option.map_some, Nat.max_eq_right newer.le]
    · have seqnum' : x.seqnum = e.seqnum := congrArg RouteOrder.Route.seqno same'.route
      rw [here, found, Option.bind_some, Option.bind_some, kept, seqnum']
      cases waiting : e.q with
      | none => simp
      | some q =>
        rw [queue, found, Option.getD_some] at idle
        have lost := idle.resolve_left (by rw [waiting]; exact Option.some_ne_none q)
        have older : ad.seqnum ≤ e.seqnum := by
          unfold Taken at worse
          omega
        rw [if_pos lost, Option.isSome_some, if_pos rfl, Option.map_some, Nat.max_eq_left older]
  · have here : ({ (decided c a now saddr ad).2.1 with q := none } : RtableEnt).dst = ad.dst := learned.dst
    rw [left, getEntry_addEntry, if_pos here.symm, if_neg valid]
    rfl

end Turn

end DsdvAgent

end Ns2
