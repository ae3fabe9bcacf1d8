import Ns2.Aodv.Network

namespace Ns2

open AODV

/-- What keeps the assertions: a hop count other than `INFINITY2` belongs to a route that is not down, and an even number. -/
def assertRule : AodvDiscipline where
  Entry rt := (rt.flags = .up → rt.hops ≠ aodvInfinity) ∧ (rt.flags = .down → rt.hops = aodvInfinity) ∧
    rt.hops ≤ aodvInfinity ∧ (rt.hops ≠ aodvInfinity → ValidSeqno rt.seqno)
  Le _ _ := True
  Backs _ _ _ := True
  Learn _ seqno hopCount _ := ValidSeqno seqno ∧ hopCount < aodvInfinity
  Err _ := True
  GiveUp _ := True
  trans _ _ _ _ _ := trivial
  made dst := by simp [AodvRtEntry.make]
  same rt rt' same entry := by
    rw [same.flags, same.hops, same.seqno]
    exact ⟨entry, trivial⟩
  learned rt seqno hopCount nexthop expire entry learn _ := by
    obtain ⟨valid, less⟩ := learn
    exact ⟨⟨fun _ => Nat.ne_of_lt less, nofun, Nat.le_of_lt less, fun _ => valid⟩, trivial⟩
  failed rt entry up := by
    have raised : rt.raise.flags = .up := up
    unfold AodvRtEntry.rtDown
    rw [if_neg (by rw [raised]; decide)]
    exact ⟨⟨nofun, fun _ => rfl, le_rfl, fun finite => absurd rfl finite⟩, trivial, trivial⟩
  reported rt seqno entry _ up _ := by
    unfold AodvRtEntry.rtDown
    dsimp only
    rw [if_neg (by rw [up]; decide)]
    exact ⟨⟨nofun, fun _ => rfl, le_rfl, fun finite => absurd rfl finite⟩, trivial⟩
  repaired rt entry := ⟨⟨nofun, nofun, entry.2.2.1, entry.2.2.2⟩, trivial⟩
  givenUp rt entry _ := by
    unfold AodvRtEntry.rtDown
    split_ifs
    · exact ⟨entry, trivial⟩
    · exact ⟨⟨nofun, fun _ => rfl, le_rfl, fun finite => absurd rfl finite⟩, trivial⟩
  backs _ _ _ _ := trivial
  backsOn _ _ _ _ _ _ := trivial
  finite _ entry up := entry.1 up
  small _ entry := entry.2.2.1
  valid _ entry finite := entry.2.2.2 finite
  lost _ entry down := ⟨entry.2.1 down, trivial⟩

namespace AodvNetwork

/-- No reply that the agent takes has the hop count `INFINITY2`. -/
def FiniteReplies (a : AODV) : AODV.Event → Prop
  | .recv p =>
    match p.body with
    | .reply rp => isBetter (a.rtFind rp.dst).2 rp.dstSeqno rp.hopCount → rp.hopCount ≠ aodvInfinity
    | .request _ | .error _ | .hello _ | .data _ => True
  | .linkFailed _ | .broadcastTimer | .helloTimer | .neighborTimer | .routeCacheTimer | .localRepairTimer _ => True

instance FiniteReplies.decidable (a : AODV) : ∀ event, Decidable (FiniteReplies a event)
  | .recv ⟨_, _, _, _, _, .reply rp⟩ =>
    inferInstanceAs (Decidable (isBetter (a.rtFind rp.dst).2 rp.dstSeqno rp.hopCount → rp.hopCount ≠ aodvInfinity))
  | .recv ⟨_, _, _, _, _, .request _⟩ | .recv ⟨_, _, _, _, _, .error _⟩ => isTrue trivial
  | .recv ⟨_, _, _, _, _, .hello _⟩ | .recv ⟨_, _, _, _, _, .data _⟩ => isTrue trivial
  | .linkFailed _ | .broadcastTimer | .helloTimer | .neighborTimer | .routeCacheTimer | .localRepairTimer _ => isTrue trivial

/-- The step meets no entry under repair where the code asserts that it is up, and brings no route with hop count `INFINITY2`. -/
def SparesAssertions (net : AodvNetwork) (s : ℚ × AodvStep) : Prop :=
  ∀ happens ∈ net.event s.2, SparesRepairs (net.node happens.1) s.1 happens.2 ∧ FiniteReplies (net.node happens.1) happens.2

instance (net : AodvNetwork) (s : ℚ × AodvStep) : Decidable (SparesAssertions net s) :=
  inferInstanceAs (Decidable (∀ happens ∈ net.event s.2, _))

/-- What the assertions rest on. -/
structure Asserted (net : AodvNetwork) : Prop where
  seqno : ∀ i, (net.node i).seqno % 2 = 0
  finite : ∀ i, ∀ rt ∈ (net.node i).rtable, rt.flags = .up → rt.hops ≠ aodvInfinity ∧ rt.seqno % 2 = 0

theorem assertRule_coherent : Coherent fun _ _ => assertRule := ⟨fun _ _ _ _ _ sends => sends, fun _ _ _ _ _ _ _ entry => entry⟩

theorem assertRule_received {net : AodvNetwork} {s : AodvStep} {i : ℕ} {event : AODV.Event}
    (holds : Holds (fun _ _ => assertRule) net) (happens : net.event s = some (i, event))
    (finite : FiniteReplies (net.node i) event) : assertRule.Received (net.node i) event := by
  cases event with
  | recv p =>
    unfold AodvDiscipline.Received
    unfold FiniteReplies at finite
    dsimp only at finite ⊢
    rcases event_recv happens with sent | data
    · obtain ⟨j, sends⟩ := holds.sends p sent
      unfold AodvDiscipline.Sends at sends
      cases body : p.body with
      | request rq =>
        rw [body] at sends
        obtain ⟨_, ttl, hops, valid, _⟩ := sends
        have less : rq.hopCount < aodvInfinity := by
          unfold aodvInfinity
          omega
        exact fun _ => ⟨⟨by dsimp only; omega, by dsimp only; omega, valid⟩, fun _ => ⟨valid, less⟩⟩
      | reply rp =>
        rw [body] at sends
        simp only [body] at finite
        obtain ⟨_, _, hops, valid, _⟩ := sends
        intro better
        have less := lt_of_le_of_ne hops (finite better)
        exact ⟨less, valid, valid, less⟩
      | error unreachable => exact fun _ _ => trivial
      | hello rh => trivial
      | data numForwards => trivial
    · cases body : p.body with
      | data numForwards => trivial
      | request rq =>
        rw [body] at data
        cases data
      | reply rp =>
        rw [body] at data
        cases data
      | error unreachable => exact fun _ _ => trivial
      | hello rh => trivial
  | localRepairTimer daddr => exact fun _ _ _ => trivial
  | linkFailed p => trivial
  | broadcastTimer => trivial
  | helloTimer => trivial
  | neighborTimer => trivial
  | routeCacheTimer => trivial

theorem Holds.asserted {net : AodvNetwork} (holds : Holds (fun _ _ => assertRule) net) : Asserted net where
  seqno i := (holds.kept i).seqno.even
  finite i rt member up := by
    have entry := (holds.kept i).entries rt member
    have finite := entry.1 up
    exact ⟨finite, (entry.2.2.2 finite).even⟩

/-- In a run that spares the assertions, none fails. -/
theorem run_asserted (steps : List (ℚ × AodvStep)) (spares : machine.Along SparesAssertions initial steps) :
    ∃ last outs, machine.run initial steps = some (last, outs) ∧ Asserted last := by
  have kept (net : AodvNetwork) (s : ℚ × AodvStep) (holds : Holds (fun _ _ => assertRule) net) (spare : SparesAssertions net s) :
      ∃ next out, machine.step net s = some (next, out) ∧ Holds (fun _ _ => assertRule) next := by
    have yields : Yields True (machine.step net s) fun next => Holds (fun _ _ => assertRule) next.1 :=
      step_yields assertRule_coherent holds
        (fun i event happens => assertRule_received holds happens (spare (i, event) happens).2)
        fun _ i event happens => (spare (i, event) happens).1
    obtain ⟨next, step, after⟩ := yields.exists_of_strict trivial
    exact ⟨next.1, next.2, step, after⟩
  obtain ⟨last, outs, run, holds⟩ := Machine.run_invariant kept holds_initial spares
  exact ⟨last, outs, run, holds.asserted⟩

/-- A data packet of a node, to another. -/
def dataTo (src dst : ℕ) (nextHop : Option ℕ) (numForwards : ℤ) : AodvPacket := ⟨32, src, some dst, nextHop, false, .data numForwards⟩

/-- A route from 1 over 0 to 2 is found and used, and then the link from 0 to 2 fails. -/
def sampleRun : List (ℚ × AodvStep) :=
  [(1, .own 1 (.recv (dataTo 1 2 none 0))), (2, .deliver 0 0), (3, .deliver 2 1), (4, .deliver 0 2), (5, .deliver 1 3), (6, .deliver 0 4),
    (7, .own 0 (.linkFailed (dataTo 1 2 (some 2) 1)))]

theorem run_asserted_sample : ∃ last outs, machine.run initial sampleRun = some (last, outs) ∧ Asserted last :=
  run_asserted sampleRun (by decide +kernel)

/-- Two packets that node 0 could not hand on to 1: the first starts a local repair, the second takes the link down. -/
def repairRun : List (ℚ × AodvStep) :=
  [(1, .own 1 (.recv (dataTo 1 2 none 0))), (2, .deliver 0 0), (3, .own 0 (.linkFailed (dataTo 2 1 (some 1) 2))),
    (4, .own 0 (.linkFailed (dataTo 0 1 (some 1) 0)))]

theorem repair_asserts : ¬∀ steps : List (ℚ × AodvStep),
    ∃ last outs, machine.run initial steps = some (last, outs) ∧ Asserted last := by
  intro claimed
  obtain ⟨last, outs, run, _⟩ := claimed repairRun
  have fails : (machine.run initial repairRun).isNone = true := by decide +kernel
  rw [run] at fails
  cases fails

end AodvNetwork

end Ns2
