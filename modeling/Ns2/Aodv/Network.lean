import Mathlib.Logic.Function.Basic
import Ns2.Aodv.Messages

namespace Ns2

open AODV

section Handle

variable {a : AODV} {now : ℚ}

/-- What a discipline asks of an event at an agent. -/
def AodvDiscipline.Received (D : AodvDiscipline) (a : AODV) : AODV.Event → Prop
  | .recv p =>
    match p.body with
    | .request rq => rq.src ≠ a.index → AodvDiscipline.Asked { p with ttl := p.ttl - 1 } rq ∧
        (isBetter (a.rtFind rq.src).2 rq.srcSeqno rq.hopCount → D.Learn rq.src rq.srcSeqno rq.hopCount p.saddr)
    | .reply rp => isBetter (a.rtFind rp.dst).2 rp.dstSeqno rp.hopCount → D.Replied rp
    | .error unreachable => ∀ lost ∈ unreachable, D.Err lost.2
    | .hello _ | .data _ => True
  | .localRepairTimer daddr => ∀ rt, a.rtLookup daddr = some rt → rt.flags ≠ .up → D.GiveUp rt
  | .linkFailed _ | .broadcastTimer | .helloTimer | .neighborTimer | .routeCacheTimer => True

/-- The event meets no entry that has a hop count and is not up, where the code takes such an entry for one that is up. -/
def SparesRepairs (a : AODV) (now : ℚ) : AODV.Event → Prop
  | .recv p =>
    match p.body with
    | .reply rp => isBetter (a.rtFind rp.dst).2 rp.dstSeqno rp.hopCount → ∀ d ∈ p.daddr, d ≠ a.index → d ≠ rp.dst →
        ∀ rt ∈ a.rtLookup d, rt.hops ≠ aodvInfinity → rt.flags = .up
    | .error unreachable => ∀ lost ∈ unreachable, AodvDiscipline.ErrorUp a p.saddr lost
    | .request _ | .hello _ | .data _ => True
  | .linkFailed p =>
    match p.body with
    | .data numForwards => ∀ d ∈ p.daddr, ∀ rt ∈ a.rtLookup d, ¬numForwards > rt.hops → LinkUp a (p.nextHop.getD 0)
    | .request _ | .reply _ | .error _ | .hello _ => True
  | .neighborTimer => ∀ id ∈ (a.nbhead.filter (·.expire ≤ now)).map AodvNeighbor.addr, LinkUp a id
  | .broadcastTimer | .helloTimer | .routeCacheTimer | .localRepairTimer _ => True

instance (a : AODV) (id : ℕ) : Decidable (LinkUp a id) := inferInstanceAs (Decidable (∀ rt ∈ a.rtable, _))

instance (a : AODV) (saddr : ℕ) (lost : ℕ × ℕ) : Decidable (AodvDiscipline.ErrorUp a saddr lost) :=
  inferInstanceAs (Decidable (∀ rt ∈ a.rtLookup lost.1, AodvDiscipline.losesRoute saddr lost.2 rt → rt.flags = .up))

instance SparesRepairs.decidable (a : AODV) (now : ℚ) : ∀ event, Decidable (SparesRepairs a now event)
  | .recv ⟨_, _, daddr, _, _, .reply rp⟩ =>
    inferInstanceAs (Decidable (isBetter (a.rtFind rp.dst).2 rp.dstSeqno rp.hopCount → ∀ d ∈ daddr, d ≠ a.index → d ≠ rp.dst →
      ∀ rt ∈ a.rtLookup d, rt.hops ≠ aodvInfinity → rt.flags = .up))
  | .recv ⟨_, saddr, _, _, _, .error unreachable⟩ =>
    inferInstanceAs (Decidable (∀ lost ∈ unreachable, AodvDiscipline.ErrorUp a saddr lost))
  | .linkFailed ⟨_, _, daddr, nextHop, _, .data numForwards⟩ =>
    inferInstanceAs (Decidable (∀ d ∈ daddr, ∀ rt ∈ a.rtLookup d, ¬numForwards > rt.hops → LinkUp a (nextHop.getD 0)))
  | .neighborTimer => inferInstanceAs (Decidable (∀ id ∈ (a.nbhead.filter (·.expire ≤ now)).map AodvNeighbor.addr, LinkUp a id))
  | .recv ⟨_, _, _, _, _, .request _⟩ | .recv ⟨_, _, _, _, _, .hello _⟩ | .recv ⟨_, _, _, _, _, .data _⟩ => isTrue trivial
  | .linkFailed ⟨_, _, _, _, _, .request _⟩ | .linkFailed ⟨_, _, _, _, _, .reply _⟩ | .linkFailed ⟨_, _, _, _, _, .error _⟩ =>
    isTrue trivial
  | .linkFailed ⟨_, _, _, _, _, .hello _⟩ => isTrue trivial
  | .broadcastTimer | .helloTimer | .routeCacheTimer | .localRepairTimer _ => isTrue trivial

namespace AodvDiscipline

variable {D : AodvDiscipline} {strict : Prop}

theorem recvHello_yields {id : ℕ} (kept : D.Kept a) : Yields strict (a.recvHello now id) fun b => D.Good a (b, []) := by
  have next := validSeqno_add_two kept.seqno
  unfold recvHello
  refine .ite (fun _ => Good.of_eq kept kept.seqno rfl rfl kept.queued (by simp)) fun _ => ?_
  exact .of_asserting (fun _ => next.even) fun _ => Good.of_eq kept next rfl rfl kept.queued (by simp)

theorem recv_yields {p : AodvPacket} (kept : D.Kept a) (received : D.Received a (.recv p))
    (spares : strict → SparesRepairs a now (.recv p)) : Yields strict (a.recv now p) (D.Good a) := by
  unfold recv
  unfold Received at received
  unfold SparesRepairs at spares
  cases body : p.body with
  | request rq =>
    simp only [body] at received
    exact recvRequest_yields kept (fun other => (received other).1) fun other => (received other).2
  | reply rp =>
    simp only [body] at received spares
    exact recvReply_yields kept received fun claimed better d rt daddr remote elsewhere =>
      spares claimed better d daddr remote elsewhere rt
  | error unreachable =>
    simp only [body] at received spares
    exact recvError_yields kept received spares
  | hello rh => exact .map (recvHello_yields kept) fun _ good => good
  | data numForwards => exact recvData_yields kept (by rw [body]; rfl)

theorem handle_yields {event : AODV.Event} (kept : D.Kept a) (received : D.Received a event) (spares : strict → SparesRepairs a now event) :
    Yields strict (a.handle now event) (D.Good a) := by
  cases event with
  | recv p => exact recv_yields kept received spares
  | linkFailed p =>
    unfold SparesRepairs at spares
    refine rtLlFailed_yields kept fun claimed numForwards d rt body daddr found near => ?_
    have spared := spares claimed
    simp only [body] at spared
    exact spared d daddr rt found near
  | broadcastTimer => exact Good.of_eq kept kept.seqno rfl rfl kept.queued (by simp)
  | helloTimer =>
    refine Good.of_eq kept kept.seqno rfl rfl kept.queued fun p member => ?_
    cases List.mem_singleton.mp member
    trivial
  | neighborTimer => exact .mono (nbDeleteAll_yields kept spares) fun _ failed => failed.good
  | routeCacheTimer => exact rtPurge_yields kept
  | localRepairTimer daddr => exact localRepairTimeout_good kept received

end AodvDiscipline

end Handle

/-- The agents and all the packets that they have sent, delivered or not. -/
structure AodvNetwork where
  node : ℕ → AODV
  sent : List AodvPacket

/-- A sent packet comes in at a node, or something happens at a node itself. -/
inductive AodvStep
  | deliver (i k : ℕ)
  | own (i : ℕ) (event : AODV.Event)
deriving DecidableEq

namespace AodvNetwork

def initial : AodvNetwork := ⟨AODV.make, []⟩

/-- The event of a step. A packet comes in at its next hop, or at any node where it has none;
what comes in at a node otherwise is a data packet. -/
def event (net : AodvNetwork) : AodvStep → Option (ℕ × AODV.Event)
  | .deliver i k =>
    match net.sent[k]? with
    | some p => if p.nextHop = none ∨ p.nextHop = some i then some (i, .recv p) else none
    | none => none
  | .own i (.recv p) => if p.body.isData = true then some (i, .recv p) else none
  | .own i event => some (i, event)

def after (net : AodvNetwork) (i : ℕ) (result : AODV × List AodvPacket) : AodvNetwork where
  node := Function.update net.node i result.1
  sent := net.sent ++ result.2

def machine : Machine AodvNetwork (ℚ × AodvStep) Unit where
  step net s :=
    match net.event s.2 with
    | some (i, event) => ((net.node i).handle s.1 event).map fun result => (net.after i result, ())
    | none => some (net, ())

/-- The agents keep their disciplines and the sent packets are backed by their senders. -/
structure Holds (D : AodvNetwork → ℕ → AodvDiscipline) (net : AodvNetwork) : Prop where
  index : ∀ i, (net.node i).index = i
  kept : ∀ i, (D net i).Kept (net.node i)
  sends : ∀ p ∈ net.sent, ∃ i, (D net i).Sends (net.node i) p

/-- What an agent does leaves the disciplines of the others as they are. -/
structure Coherent (D : AodvNetwork → ℕ → AodvDiscipline) : Prop where
  sends : ∀ net net' i a p, (D net i).Sends a p → (D net' i).Sends a p
  entry : ∀ net i result, Holds D net → (D net i).Good (net.node i) result →
    ∀ j rt, (D net j).Entry rt → (D (net.after i result) j).Entry rt

variable {D : AodvNetwork → ℕ → AodvDiscipline} {net : AodvNetwork} {i : ℕ} {result : AODV × List AodvPacket} {strict : Prop}

theorem after_node_self : (net.after i result).node i = result.1 := Function.update_self ..

theorem after_node_other {j : ℕ} (other : j ≠ i) : (net.after i result).node j = net.node j := Function.update_of_ne other ..

theorem holds_initial : Holds D initial where
  index _ := rfl
  kept _ := ⟨⟨(by decide : 2 % 2 = 0), (by decide : 2 < 2 ^ 32)⟩, by simp [initial, AODV.make], by simp [initial, AODV.make]⟩
  sends := by simp [initial]

theorem Holds.after (coherent : Coherent D) (holds : Holds D net) (good : (D net i).Good (net.node i) result) :
    Holds D (net.after i result) where
  index j := by
    by_cases here : j = i
    · rw [here, after_node_self]
      exact good.onward.index.trans (holds.index i)
    · rw [after_node_other here]
      exact holds.index j
  kept j := by
    have entry := coherent.entry net i result holds good j
    by_cases here : j = i
    · rw [here] at entry ⊢
      rw [after_node_self]
      exact ⟨good.kept.seqno, fun rt member => entry rt (good.kept.entries rt member), good.kept.queued⟩
    · rw [after_node_other here]
      have kept := holds.kept j
      exact ⟨kept.seqno, fun rt member => entry rt (kept.entries rt member), kept.queued⟩
  sends p member := by
    rcases List.mem_append.mp member with old | new
    · obtain ⟨j, sends⟩ := holds.sends p old
      refine ⟨j, coherent.sends net _ j _ p ?_⟩
      by_cases here : j = i
      · rw [here] at sends ⊢
        rw [after_node_self]
        exact sends.onward good.onward
      · rwa [after_node_other here]
    · refine ⟨i, coherent.sends net _ i _ p ?_⟩
      rw [after_node_self]
      exact good.sends p new

theorem step_yields (coherent : Coherent D) {now : ℚ} {s : AodvStep} (holds : Holds D net)
    (received : ∀ i event, net.event s = some (i, event) → (D net i).Received (net.node i) event)
    (spares : strict → ∀ i event, net.event s = some (i, event) → SparesRepairs (net.node i) now event) :
    Yields strict (machine.step net (now, s)) fun next => Holds D next.1 := by
  unfold machine
  dsimp only
  cases happens : net.event s with
  | none => exact holds
  | some what =>
    obtain ⟨i, event⟩ := what
    refine .map (AodvDiscipline.handle_yields (holds.kept i) (received i event happens) fun claimed => spares claimed i event happens) ?_
    exact fun result good => holds.after coherent good

/-- What comes in has been sent, or is a data packet. -/
theorem event_recv {s : AodvStep} {p : AodvPacket} (happens : net.event s = some (i, .recv p)) :
    p ∈ net.sent ∨ p.body.isData = true := by
  unfold event at happens
  split at happens
  · rename_i i' k
    cases found : net.sent[k]? with
    | none =>
      rw [found] at happens
      cases happens
    | some q =>
      rw [found] at happens
      dsimp only at happens
      split_ifs at happens
      cases happens
      exact Or.inl (List.mem_of_getElem? found)
  · split_ifs at happens with data
    cases happens
    exact Or.inr data
  · rename_i other
    cases happens
    exact absurd rfl (other p)

end AodvNetwork

end Ns2
