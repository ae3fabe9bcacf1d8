import Mathlib.Algebra.BigOperators.Group.Finset.Basic
import Mathlib.Algebra.Order.BigOperators.Group.Finset
import Mathlib.Logic.Function.Iterate
import Ns2.Library.Loops
import Ns2.Routing.LsPaths

namespace Ns2

/-- `_computeRoutes` in the course of its loops, with `pTentativePaths` and `pPaths`. -/
inductive Outcome
  | running (tentative paths : LsPaths)
  | returned (paths : LsPaths)
  | aborted
deriving DecidableEq

namespace LsRouting

section Compute

variable (linkStateDatabase : LsTopoMap) (myNodeId : ℕ)

/-- One link of the node that was put in the paths last. -/
def relax (paths : LsPaths) (newNodeId : ℕ) (nhl : List ℕ) (tentative : LsPaths) (link : LsLinkState) : LsPaths :=
  if link.status ≠ .up then tentative
  else
    let path_cost := link.cost + paths.lookupCost newNodeId
    if paths.lookupCost link.neighborId < path_cost then tentative
    else tentative.insertNextHopList link.neighborId path_cost (if newNodeId = myNodeId then [link.neighborId] else nhl)

/-- Step 2, for a node with link states. -/
def expand (tentative paths : LsPaths) (newNodeId : ℕ) (lsl : List LsLinkState) : Outcome :=
  match if newNodeId = myNodeId then some [] else paths.lookupNextHopList newNodeId with
  | none => .aborted
  | some nhl => .running (lsl.foldl (relax myNodeId paths newNodeId nhl) tentative) paths

/-- One turn of the inner loop, and the body of the outer one where the inner is left. -/
def turn : Outcome → Outcome
  | .running tentative paths =>
    if tentative.entries = [] then .returned paths
    else
      let (tentative, sp) := tentative.popShortestPath
      if ¬ sp.isValid then .aborted
      else
        let paths := paths.insertPath sp
        match linkStateDatabase.find sp.destination with
        | none => .running tentative paths
        | some lsl => expand myNodeId tentative paths sp.destination lsl
  | done => done

def toSelf : LsPaths := SortedMap.empty.insert myNodeId ⟨0, [myNodeId]⟩

def start : Outcome :=
  match linkStateDatabase.find myNodeId with
  | none => .returned (toSelf myNodeId)
  | some lsl => expand myNodeId SortedMap.empty (toSelf myNodeId) myNodeId lsl

/-- `_computeRoutes` after a number of turns. -/
def computeRoutes (turns : ℕ) : Outcome := (turn linkStateDatabase myNodeId)^[turns] (start linkStateDatabase myNodeId)

end Compute

section Insertion

variable {Q : ℕ → ℕ → ℕ → Prop} {m : LsPaths} {nhl : List ℕ} {v w c c' h r : ℕ}

/-- Every entry has next hops, each once, and these meet `Q` with the destination and the cost. -/
def Filled (Q : ℕ → ℕ → ℕ → Prop) (m : LsPaths) : Prop :=
  ∀ w ep, m.find w = some ep → ep.nextHopList ≠ [] ∧ ep.nextHopList.Nodup ∧ ∀ h ∈ ep.nextHopList, Q w ep.cost h

/-- The table has the path, or one of less cost. -/
def Offered (m : LsPaths) (w c h : ℕ) : Prop := ∃ ep, m.find w = some ep ∧ (ep.cost < c ∨ ep.cost = c ∧ h ∈ ep.nextHopList)

theorem Filled.insert (filled : Filled Q m) (hop : nhl ≠ []) (distinct : nhl.Nodup) (meets : ∀ h ∈ nhl, Q w c h) :
    Filled Q (m.insertNextHopList w c nhl) := by
  intro v ep found
  rw [LsPaths.find_insertNextHopList] at found
  split_ifs at found with own
  · subst own
    cases Option.some.inj found
    rcases Option.eq_none_or_eq_some (m.find v) with none | ⟨old, there⟩
    · rw [none]
      exact ⟨hop, distinct, meets⟩
    · obtain ⟨some', nodup, good⟩ := filled v old there
      rw [there]
      unfold LsPaths.merge
      dsimp only
      split_ifs with worse better
      · exact ⟨some', nodup, good⟩
      · exact ⟨hop, distinct, meets⟩
      · have same : old.cost = c := by omega
        refine ⟨fun empty => ?_, appendUnique_nodup nodup, fun h member => ?_⟩
        · obtain ⟨h, inside⟩ := List.exists_mem_of_ne_nil _ hop
          have kept : h ∈ appendUnique old.nextHopList nhl := mem_appendUnique.mpr (Or.inr inside)
          rw [show appendUnique old.nextHopList nhl = [] from empty] at kept
          exact List.not_mem_nil kept
        · exact (mem_appendUnique.mp member).elim (good h) fun inside => same ▸ meets h inside
  · exact filled v ep found

theorem Offered.insert (offered : Offered m v c' h) : Offered (m.insertNextHopList w c nhl) v c' h := by
  obtain ⟨ep, found, place⟩ := offered
  rw [Offered, LsPaths.find_insertNextHopList]
  by_cases own : v = w
  · subst own
    rw [if_pos rfl, found]
    refine ⟨_, rfl, ?_⟩
    unfold LsPaths.merge
    dsimp only
    split_ifs with worse better
    · exact place
    · exact Or.inl (place.elim better.trans fun same => better.trans_le same.1.le)
    · exact place.imp_right fun same => ⟨same.1, mem_appendUnique.mpr (Or.inl same.2)⟩
  · rw [if_neg own]
    exact ⟨ep, found, place⟩

theorem offered_insert (m : LsPaths) (w c : ℕ) (member : h ∈ nhl) : Offered (m.insertNextHopList w c nhl) w c h := by
  rw [Offered, LsPaths.find_insertNextHopList, if_pos rfl]
  refine ⟨_, rfl, ?_⟩
  rcases Option.eq_none_or_eq_some (m.find w) with none | ⟨old, there⟩
  · rw [none]
    exact Or.inr ⟨rfl, member⟩
  · rw [there]
    unfold LsPaths.merge
    dsimp only
    split_ifs with worse better
    · exact Or.inl worse
    · exact Or.inr ⟨rfl, member⟩
    · exact Or.inr ⟨show old.cost = c by omega, mem_appendUnique.mpr (Or.inr member)⟩

section Work

variable (rank : ℕ → ℕ → ℕ) (nodes : Finset ℕ)

def item (w : ℕ) (ep : Option LsEqualPaths) : Multiset ℕ :=
  ep.elim 0 fun ep => Multiset.replicate ep.nextHopList.length (rank w ep.cost)

/-- The rank of every path of the table, for each of its next hops. -/
def work (m : LsPaths) : Multiset ℕ := ∑ w ∈ nodes, item rank w (m.find w)

theorem work_change {m' : LsPaths} (member : w ∈ nodes) (others : ∀ v, v ≠ w → m'.find v = m.find v) :
    ∃ rest, work rank nodes m = item rank w (m.find w) + rest ∧ work rank nodes m' = item rank w (m'.find w) + rest := by
  refine ⟨∑ v ∈ nodes.erase w, item rank v (m.find v), (Finset.add_sum_erase nodes _ member).symm, ?_⟩
  rw [work, ← Finset.add_sum_erase nodes _ member]
  refine congrArg _ (Finset.sum_congr rfl fun v inside => ?_)
  rw [others v (Finset.ne_of_mem_erase inside)]

variable {rank nodes}

theorem insert_grown (member : w ∈ nodes) (lower : rank w c < r) :
    WorkList.Grown r (work rank nodes m) (work rank nodes (m.insertNextHopList w c nhl)) := by
  have others : ∀ v, v ≠ w → (m.insertNextHopList w c nhl).find v = m.find v := fun v other => by
    rw [LsPaths.find_insertNextHopList, if_neg other]
  obtain ⟨rest, before, after⟩ := work_change rank nodes member others
  rw [before, after, LsPaths.find_insertNextHopList, if_pos rfl]
  refine ⟨Multiset.replicate nhl.length (rank w c), ?_, fun y inside => by rw [Multiset.eq_of_mem_replicate inside]; exact lower⟩
  rw [add_right_comm]
  refine add_le_add_left ?_ rest
  rcases Option.eq_none_or_eq_some (m.find w) with none | ⟨old, there⟩
  · rw [none]
    exact (zero_add _).ge
  · rw [there]
    unfold LsPaths.merge
    dsimp only
    split_ifs with worse better
    · exact Multiset.le_add_right _ _
    · exact Multiset.le_add_left _ _
    · have same : old.cost = c := by omega
      change Multiset.replicate _ (rank w old.cost) ≤ Multiset.replicate _ (rank w old.cost) + _
      rw [same, ← Multiset.replicate_add]
      exact (Multiset.replicate_le_replicate _).mpr (appendUnique_length _ _)

end Work

end Insertion

end LsRouting

end Ns2
