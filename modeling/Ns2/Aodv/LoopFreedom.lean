import Ns2.Aodv.Network
import Ns2.Library.Acyclic

namespace Ns2

open AODV

def AodvRtEntry.route (rt : AodvRtEntry) : RouteOrder.Route ℕ := ⟨rt.seqno, rt.hops, rt.nexthop⟩

namespace AodvNetwork

/-- The entries of all nodes for a destination. -/
def view (net : AodvNetwork) (d : ℕ) : RouteOrder.View ℕ := fun i => ((net.node i).rtLookup d).map AodvRtEntry.route

/-- A next hop for a destination is the destination, or has a fresher entry for it. -/
def Supports (net : AodvNetwork) (d seqno hopCount nexthop : ℕ) : Prop := RouteOrder.Supports (net.view d) d seqno hopCount nexthop

/-- What keeps the routes free of loops: every route is supported by its next hop, and a route is taken down with an odd number. -/
structure LoopFree (net : AodvNetwork) (i : ℕ) (rt : AodvRtEntry) : Prop where
  up : rt.flags = .up → rt.hops ≠ aodvInfinity
  down : rt.flags = .down → rt.hops = aodvInfinity
  small : rt.hops ≤ aodvInfinity
  valid : rt.hops ≠ aodvInfinity → ValidSeqno rt.seqno
  positive : rt.hops ≠ aodvInfinity → 0 < rt.seqno
  remote : rt.hops ≠ aodvInfinity → rt.dst ≠ i
  supported : rt.hops ≠ aodvInfinity → net.Supports rt.dst rt.seqno rt.hops rt.nexthop
  lost : rt.hops = aodvInfinity → rt.seqno % 2 = 1 ∨ rt.seqno = 0

theorem LoopFree.of_lost {net : AodvNetwork} {i : ℕ} {rt : AodvRtEntry} (flags : rt.flags = .down) (hops : rt.hops = aodvInfinity)
    (seqno : rt.seqno % 2 = 1 ∨ rt.seqno = 0) : LoopFree net i rt where
  up up := by rw [flags] at up; cases up
  down _ := hops
  small := Nat.le_of_eq hops
  valid finite := absurd hops finite
  positive finite := absurd hops finite
  remote finite := absurd hops finite
  supported finite := absurd hops finite
  lost _ := seqno

/-- An entry that is taken down, after its number has been set. -/
theorem LoopFree.rtDown {net : AodvNetwork} {i seqno : ℕ} {rt : AodvRtEntry} (up : rt.flags = .up) (odd : seqno % 2 = 1) :
    LoopFree net i { rt with seqno := seqno }.rtDown ∧ { rt with seqno := seqno }.rtDown.seqno = seqno := by
  unfold AodvRtEntry.rtDown
  dsimp only
  rw [if_neg (by rw [up]; decide)]
  exact ⟨.of_lost rfl rfl (Or.inl odd), rfl⟩

/-- The entry after its link has failed. -/
theorem LoopFree.failed {net : AodvNetwork} {i : ℕ} {rt : AodvRtEntry} (entry : LoopFree net i rt) (up : rt.flags = .up) :
    LoopFree net i rt.raise.rtDown ∧ RouteOrder.AtLeast rt.route rt.raise.rtDown.route ∧
      (rt.raise.seqno % 2 = 1 ∨ rt.raise.seqno = 0) := by
  have valid := entry.valid (entry.up up)
  have even := valid.even
  have small := valid.small
  have next : (rt.seqno + 1) % 2 ^ 32 = rt.seqno + 1 := by omega
  have odd : (rt.seqno + 1) % 2 ^ 32 % 2 = 1 := by omega
  obtain ⟨down, seqno⟩ : LoopFree net i rt.raise.rtDown ∧ rt.raise.rtDown.seqno = _ := LoopFree.rtDown up odd
  refine ⟨down, Or.inl ?_, Or.inl odd⟩
  dsimp only [AodvRtEntry.route]
  rw [seqno, next]
  exact Nat.lt_succ_self rt.seqno

/-- The entry after a route error has named it. -/
theorem LoopFree.reported {net : AodvNetwork} {i seqno : ℕ} {rt : AodvRtEntry} (entry : LoopFree net i rt)
    (err : seqno % 2 = 1 ∨ seqno = 0) (up : rt.flags = .up) (newer : rt.seqno ≤ seqno) :
    LoopFree net i { rt with seqno := seqno }.rtDown ∧
      RouteOrder.AtLeast rt.route { rt with seqno := seqno }.rtDown.route := by
  have finite := entry.up up
  have even := (entry.valid finite).even
  have positive := entry.positive finite
  have odd : seqno % 2 = 1 := by omega
  obtain ⟨down, same⟩ : LoopFree net i { rt with seqno := seqno }.rtDown ∧ _ := LoopFree.rtDown up odd
  refine ⟨down, Or.inl ?_⟩
  dsimp only [AodvRtEntry.route]
  rw [same]
  omega

def loopRule (net : AodvNetwork) (i : ℕ) : AodvDiscipline where
  Entry := LoopFree net i
  Le rt rt' := RouteOrder.AtLeast rt.route rt'.route
  Backs rt := RouteOrder.Fresher rt.route
  Learn d seqno hopCount nexthop := ValidSeqno seqno ∧ 0 < seqno ∧ hopCount < aodvInfinity ∧ d ≠ i ∧
    net.Supports d seqno hopCount nexthop
  Err seqno := seqno % 2 = 1 ∨ seqno = 0
  GiveUp rt := rt.flags = .down
  trans _ _ _ first second := first.trans second
  made dst := .of_lost rfl rfl (Or.inr rfl)
  same rt rt' same entry := by
    obtain ⟨dst, seqno, hops, nexthop, flags⟩ := same
    refine ⟨⟨?_, ?_, ?_, ?_, ?_, ?_, ?_, ?_⟩, Or.inr ⟨seqno.symm, Nat.le_of_eq hops⟩⟩
    · exact flags ▸ hops ▸ entry.up
    · exact flags ▸ hops ▸ entry.down
    · exact hops ▸ entry.small
    · exact hops ▸ seqno ▸ entry.valid
    · exact hops ▸ seqno ▸ entry.positive
    · exact hops ▸ dst ▸ entry.remote
    · exact hops ▸ dst ▸ seqno ▸ nexthop ▸ entry.supported
    · exact hops ▸ seqno ▸ entry.lost
  learned rt seqno hopCount nexthop expire _ learn better := by
    obtain ⟨valid, positive, less, remote, supported⟩ := learn
    have finite := Nat.ne_of_lt less
    refine ⟨⟨fun _ => finite, nofun, Nat.le_of_lt less, fun _ => valid, fun _ => positive, fun _ => remote, fun _ => supported,
      fun lost => absurd lost finite⟩, ?_⟩
    exact better.imp id fun equal => ⟨equal.1.symm, Nat.le_of_lt equal.2⟩
  failed _ entry up := entry.failed up
  reported _ _ entry err up newer := entry.reported err up newer
  repaired rt entry := by
    refine ⟨⟨nofun, nofun, entry.small, entry.valid, entry.positive, entry.remote, entry.supported, entry.lost⟩, Or.inr ⟨rfl, le_rfl⟩⟩
  givenUp rt entry down := by
    unfold AodvRtEntry.rtDown
    rw [if_pos down]
    exact ⟨entry, Or.inr ⟨rfl, le_rfl⟩⟩
  backs _ _ _ fresher := fresher
  backsOn _ _ _ _ le fresher := fresher.atLeast le
  finite _ entry up := entry.up up
  small _ entry := entry.small
  valid _ entry finite := entry.valid finite
  lost _ entry down := ⟨entry.down down, entry.lost (entry.down down)⟩

theorem grows_after {net : AodvNetwork} {i : ℕ} {result : AODV × List AodvPacket}
    (good : (loopRule net i).Good (net.node i) result) (d : ℕ) : RouteOrder.Grows (net.view d) ((net.after i result).view d) := by
  intro j r found
  obtain ⟨rt, lookup, same⟩ := Option.map_eq_some_iff.mp found
  subst same
  unfold view
  by_cases here : j = i
  · rw [here] at lookup ⊢
    obtain ⟨rt', lookup', le⟩ := good.onward.entries d rt lookup
    exact ⟨rt'.route, by rw [after_node_self, lookup', Option.map_some], le⟩
  · exact ⟨rt.route, by rw [after_node_other here, lookup, Option.map_some], .refl rt.route⟩

theorem loopRule_coherent : Coherent loopRule where
  sends _ _ _ _ _ sends := sends
  entry _ _ _ _ good _ _ entry :=
    ⟨entry.up, entry.down, entry.small, entry.valid, entry.positive, entry.remote,
      fun finite => (entry.supported finite).grows (grows_after good _), entry.lost⟩

/-- The next hop that a packet offers has the route. -/
theorem Holds.supports {net : AodvNetwork} {j d seqno hopCount : ℕ} (holds : Holds loopRule net)
    (offers : (loopRule net j).Offers (net.node j) d seqno hopCount) : net.Supports d seqno hopCount j := by
  refine offers.imp (fun own => own.trans (holds.index j)) ?_
  rintro ⟨rt, found, fresher⟩
  exact ⟨rt.route, congrArg (Option.map AodvRtEntry.route) found, fresher⟩

/-- A request or a reply that the agent takes a route from has a sequence number other than 0; the reply
is not for a route to the agent itself and has no hop count `INFINITY2`; and no local repair is given up. -/
def SparesLoops (a : AODV) : AODV.Event → Prop
  | .recv p =>
    match p.body with
    | .request rq => rq.src ≠ a.index → isBetter (a.rtFind rq.src).2 rq.srcSeqno rq.hopCount → rq.srcSeqno ≠ 0
    | .reply rp => isBetter (a.rtFind rp.dst).2 rp.dstSeqno rp.hopCount →
        rp.dstSeqno ≠ 0 ∧ rp.dst ≠ a.index ∧ rp.hopCount ≠ aodvInfinity
    | .error _ | .hello _ | .data _ => True
  | .localRepairTimer d => ∀ rt ∈ a.rtLookup d, rt.flags ≠ .inRepair
  | .linkFailed _ | .broadcastTimer | .helloTimer | .neighborTimer | .routeCacheTimer => True

instance SparesLoops.decidable (a : AODV) : ∀ event, Decidable (SparesLoops a event)
  | .recv ⟨_, _, _, _, _, .request rq⟩ =>
    inferInstanceAs (Decidable (rq.src ≠ a.index → isBetter (a.rtFind rq.src).2 rq.srcSeqno rq.hopCount → rq.srcSeqno ≠ 0))
  | .recv ⟨_, _, _, _, _, .reply rp⟩ =>
    inferInstanceAs (Decidable (isBetter (a.rtFind rp.dst).2 rp.dstSeqno rp.hopCount →
      rp.dstSeqno ≠ 0 ∧ rp.dst ≠ a.index ∧ rp.hopCount ≠ aodvInfinity))
  | .localRepairTimer d => inferInstanceAs (Decidable (∀ rt ∈ a.rtLookup d, rt.flags ≠ .inRepair))
  | .recv ⟨_, _, _, _, _, .error _⟩ | .recv ⟨_, _, _, _, _, .hello _⟩ | .recv ⟨_, _, _, _, _, .data _⟩ => isTrue trivial
  | .linkFailed _ | .broadcastTimer | .helloTimer | .neighborTimer | .routeCacheTimer => isTrue trivial

def LoopsSpared (net : AodvNetwork) (s : ℚ × AodvStep) : Prop :=
  ∀ happens ∈ net.event s.2, SparesLoops (net.node happens.1) happens.2

instance (net : AodvNetwork) (s : ℚ × AodvStep) : Decidable (LoopsSpared net s) :=
  inferInstanceAs (Decidable (∀ happens ∈ net.event s.2, _))

theorem loopRule_received {net : AodvNetwork} {s : AodvStep} {i : ℕ} {event : AODV.Event} (holds : Holds loopRule net)
    (happens : net.event s = some (i, event)) (spares : SparesLoops (net.node i) event) :
    (loopRule net i).Received (net.node i) event := by
  have index := holds.index i
  cases event with
  | recv p =>
    unfold AodvDiscipline.Received
    unfold SparesLoops at spares
    dsimp only at spares ⊢
    rcases event_recv happens with sent | data
    · obtain ⟨j, sends⟩ := holds.sends p sent
      unfold AodvDiscipline.Sends at sends
      cases body : p.body with
      | request rq =>
        rw [body] at sends
        simp only [body] at spares
        obtain ⟨saddr, ttl, hops, valid, offers⟩ := sends
        have less : rq.hopCount < aodvInfinity := by
          unfold aodvInfinity
          omega
        refine fun other => ⟨⟨by dsimp only; omega, by dsimp only; omega, valid⟩, fun better => ?_⟩
        refine ⟨valid, Nat.pos_of_ne_zero (spares other better), less, index ▸ other, ?_⟩
        rw [saddr, holds.index j]
        exact holds.supports offers
      | reply rp =>
        rw [body] at sends
        simp only [body] at spares
        obtain ⟨src, _, hops, valid, offers⟩ := sends
        intro better
        obtain ⟨positive, remote, finite⟩ := spares better
        have less := lt_of_le_of_ne hops finite
        refine ⟨less, valid, valid, Nat.pos_of_ne_zero positive, less, index ▸ remote, ?_⟩
        rw [src, holds.index j]
        exact holds.supports offers
      | error unreachable =>
        rw [body] at sends
        exact sends
      | hello rh => trivial
      | data numForwards => trivial
    · cases body : p.body with
      | data numForwards => trivial
      | request rq =>
        rw [body] at data
        cases data
      | reply rp =>
        rw [body] at data
        cases data
      | error unreachable =>
        rw [body] at data
        cases data
      | hello rh => trivial
  | localRepairTimer d =>
    intro rt found up
    cases flags : rt.flags with
    | down => exact flags
    | up => exact absurd flags up
    | inRepair => exact absurd flags (spares rt found)
  | linkFailed p => trivial
  | broadcastTimer => trivial
  | helloTimer => trivial
  | neighborTimer => trivial
  | routeCacheTimer => trivial

/-- The node's entry for the destination is up and has this next hop. -/
def Edge (net : AodvNetwork) (d i j : ℕ) : Prop :=
  ∃ rt ∈ (net.node i).rtLookup d, rt.flags = .up ∧ rt.nexthop = j

instance (net : AodvNetwork) (d i j : ℕ) : Decidable (net.Edge d i j) :=
  inferInstanceAs (Decidable (∃ rt ∈ (net.node i).rtLookup d, _))

theorem Holds.acyclic {net : AodvNetwork} (holds : Holds loopRule net) (d : ℕ) : Acyclic (net.Edge d) := by
  have entry {i : ℕ} {rt : AodvRtEntry} (found : (net.node i).rtLookup d = some rt) : LoopFree net i rt := (holds.kept i).entry found
  refine (RouteOrder.acyclic_of_supported (net.view d) d
    (fun i r => ∃ rt, (net.node i).rtLookup d = some rt ∧ rt.flags = .up ∧ r = rt.route) ?_ ?_ ?_).mono ?_
  · rintro i r ⟨rt, found, _, rfl⟩
    exact congrArg (Option.map AodvRtEntry.route) found
  · rintro r ⟨rt, found, up, _⟩
    have own := entry found
    exact own.remote (own.up up) (rtLookup_dst found)
  · rintro i r ⟨rt, found, up, rfl⟩
    have loopFree := entry found
    have supported := loopFree.supported (loopFree.up up)
    rwa [rtLookup_dst found] at supported
  · rintro i j ⟨rt, found, up, towards⟩
    exact ⟨rt.route, ⟨rt, found, up, rfl⟩, towards⟩

/-- In every run that spares the loops the next hops to a destination have no cycle. -/
theorem run_loopFree (steps : List (ℚ × AodvStep)) (spares : machine.Along LoopsSpared initial steps) (last : AodvNetwork)
    (outs : List Unit) (run : machine.run initial steps = some (last, outs)) (d : ℕ) : Acyclic (last.Edge d) := by
  have kept (net : AodvNetwork) (s : ℚ × AodvStep) (next : AodvNetwork) (out : Unit) (holds : Holds loopRule net)
      (spare : LoopsSpared net s) (step : machine.step net s = some (next, out)) : Holds loopRule next := by
    have yields : Yields False (machine.step net s) fun next => Holds loopRule next.1 :=
      step_yields loopRule_coherent holds (fun i event happens => loopRule_received holds happens (spare (i, event) happens)) nofun
    exact yields.of_eq_some step
  exact (Machine.run_kept kept holds_initial spares run).acyclic d

/-- A data packet that a node sends to another. -/
def ownData (src dst : ℕ) : AodvStep := .own src (.recv ⟨32, src, some dst, none, false, .data 0⟩)

/-- A route from 2 over 1 to 0 is found and used. -/
def foundRun : List (ℚ × AodvStep) :=
  [(1, ownData 2 0), (2, .deliver 1 0), (3, .deliver 0 1), (4, .deliver 1 2), (5, .deliver 2 3)]

theorem run_loopFree_sample : ∃ last outs, machine.run initial foundRun = some (last, outs) ∧ last.Edge 0 2 1 ∧ last.Edge 0 1 0 ∧
    Acyclic (last.Edge 0) := by
  have succeeds : ((machine.run initial foundRun).any fun result => decide (result.1.Edge 0 2 1 ∧ result.1.Edge 0 1 0)) = true := by
    decide +kernel
  obtain ⟨⟨last, outs⟩, run, edges⟩ := (Option.any_eq_true _ _).mp succeeds
  exact ⟨last, outs, run, (of_decide_eq_true edges).1, (of_decide_eq_true edges).2,
    run_loopFree foundRun (by decide +kernel) last outs run 0⟩

/-- The reply of 0 to a request of 2 is delayed on its way to 1; meanwhile another request of 2 brings 1 a route to 2 over 0,
so that 1 sends the reply on to 0. -/
def ownReplyRun : List (ℚ × AodvStep) :=
  [(1, ownData 2 0), (2, .deliver 1 0), (3, .deliver 0 1), (4, ownData 2 3), (5, .deliver 0 3), (6, .deliver 1 4), (7, .deliver 1 2),
    (8, .deliver 0 6)]

theorem ownReply_loops : ¬∀ (steps : List (ℚ × AodvStep)) (last : AodvNetwork) (outs : List Unit),
    machine.run initial steps = some (last, outs) → ∀ d, Acyclic (last.Edge d) := by
  intro claimed
  have succeeds : ((machine.run initial ownReplyRun).any fun result => decide (result.1.Edge 0 0 1 ∧ result.1.Edge 0 1 0)) = true := by
    decide +kernel
  obtain ⟨⟨last, outs⟩, run, edges⟩ := (Option.any_eq_true _ _).mp succeeds
  obtain ⟨first, second⟩ := of_decide_eq_true edges
  exact claimed ownReplyRun last outs run 0 0 (.tail (.single first) second)

end AodvNetwork

end Ns2
