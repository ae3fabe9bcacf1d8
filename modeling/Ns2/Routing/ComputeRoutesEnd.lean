import Ns2.Routing.ComputeRoutesTable

namespace Ns2.LsRouting

/-- What `_computeRoutes` does not bear, within the costs that it admits. -/
structure Harmless (db : LsTopoMap) (my : ℕ) : Prop where
  acyclic : ∀ a l x, Walk (Arc db) my l a x → x ≤ LS_MAX_COST → ∀ m, m ≠ [] → ¬ Walk (Arc db) a m a 0
  sentinel : ∀ a, ¬ Least (Arc db) my a (LS_MAX_COST + 1)
  ids : ∀ l x, Walk (Arc db) my l LS_INVALID_NODE_ID x → x ≤ LS_MAX_COST → my = LS_INVALID_NODE_ID

/-- The loops go on or have come to their end, and `R` holds of the two tables. -/
def Along (db : LsTopoMap) (my : ℕ) (R : LsPaths → LsPaths → Prop) : Outcome → Prop
  | .running tentative paths => ∃ level, Settled db my none level tentative paths ∧ R tentative paths
  | .returned paths => ∃ level tentative, Settled db my none level tentative paths ∧ tentative.entries = [] ∧ R tentative paths
  | .aborted => True

section Run

variable {db : LsTopoMap} {my d w c h level n hop : ℕ} {tentative tentative' paths : LsPaths} {ep : LsEqualPaths} {rest : List ℕ}
  {R : LsPaths → LsPaths → Prop}

theorem start_along (first : R (expanded my (toSelf my) my (links db my) SortedMap.empty) (toSelf my)) : Along db my R (start db my) := by
  obtain ⟨tentative, settled, rfl, running | ⟨returned, empty⟩⟩ := start_settled db my
  · rw [running]
    exact ⟨0, settled, first⟩
  · rw [returned]
    exact ⟨0, _, settled, by rw [empty]; rfl, first⟩

/-- The two tables after the turn that takes the path. -/
def Next (db : LsTopoMap) (my : ℕ) (R : LsPaths → LsPaths → Prop) : Prop :=
  ∀ tentative paths level d ep hop rest tentative', Settled db my none level tentative paths → Taken tentative d ep hop rest tentative' →
    d ≠ LS_INVALID_NODE_ID → R tentative paths →
      R (expanded my (paths.insertPath ⟨d, ep.cost, hop⟩) d (links db d) tentative') (paths.insertPath ⟨d, ep.cost, hop⟩)

theorem turn_along (next : Next db my R) (o : Outcome) (along : Along db my R o) : Along db my R (turn db my o) := by
  cases o with
  | running tentative paths =>
    obtain ⟨level, settled, holds⟩ := along
    rcases settled.turn_cases with ⟨empty, returned⟩ | ⟨aborted, _⟩ | ⟨d, ep, hop, rest, tentative', taken, ⟨_, aborted⟩ | ⟨valid, running⟩⟩
    · rw [returned]
      exact ⟨level, tentative, settled, empty, holds⟩
    · rw [aborted]
      trivial
    · rw [aborted]
      trivial
    · rw [running]
      have entry := (settled.find_insert taken d).trans (if_pos rfl)
      exact ⟨ep.cost, (settled.pop taken valid).expand entry rfl, next _ _ _ _ _ _ _ _ settled taken valid holds⟩
  | returned paths => exact along
  | aborted => trivial

theorem computeRoutes_along (first : R (expanded my (toSelf my) my (links db my) SortedMap.empty) (toSelf my)) (next : Next db my R)
    (n : ℕ) : Along db my R (computeRoutes db my n) := by
  induction n with
  | zero => exact start_along first
  | succ n ih =>
    rw [computeRoutes, Function.iterate_succ_apply']
    exact turn_along next _ ih

theorem Harmless.self_absent (harmless : Harmless db my) (settled : Settled db my none level tentative paths) : tentative.find my = none := by
  rcases Option.eq_none_or_eq_some (tentative.find my) with none | ⟨ep, found⟩
  · exact none
  · obtain ⟨some, _, good⟩ := settled.todo my ep found
    obtain ⟨h, member⟩ := List.exists_mem_of_ne_nil _ some
    obtain ⟨⟨⟨l, walk⟩, _⟩, _, _, same⟩ := good h member
    obtain ⟨hops, self⟩ := settled.self
    rw [← same _ self] at walk
    exact absurd walk (harmless.acyclic my [] 0 (Walk.nil my) (Nat.zero_le _) (h :: l) (List.cons_ne_nil h l))

theorem Settled.turn_goes (harmless : Harmless db my) (settled : Settled db my none level tentative paths) :
    turn db my (.running tentative paths) ≠ .aborted := by
  intro aborted
  rcases settled.turn_cases with ⟨_, other⟩ | ⟨_, more, high⟩ | ⟨d, ep, hop, rest, tentative', taken, ⟨invalid, _⟩ | ⟨_, other⟩⟩
  · exact absurd (aborted.symm.trans other) nofun
  · obtain ⟨⟨w, ep⟩, member⟩ := List.exists_mem_of_ne_nil _ more
    have found := SortedMap.mem_entries.mp member
    obtain ⟨some, _, good⟩ := settled.todo w ep found
    obtain ⟨h, inside⟩ := List.exists_mem_of_ne_nil _ some
    have last : ep.cost = LS_MAX_COST + 1 := le_antisymm (good h inside).2.1 (high w ep found)
    have least := settled.pop_least found fun v other there => last.trans_le (high v other there)
    rw [last] at least
    exact harmless.sentinel w least
  · obtain ⟨⟨⟨l, walk⟩, own⟩, _⟩ := (settled.todo d ep taken.found).2.2 hop taken.member
    rcases invalid with rfl | rfl
    · have found := taken.found
      rw [← harmless.ids _ _ walk taken.below, harmless.self_absent settled] at found
      exact absurd found nofun
    · obtain ⟨y, z, arc, _, sum⟩ := walk.cons_inv
      have below := taken.below
      have same := harmless.ids _ _ (Walk.arc arc) (by omega)
      have free := Walk.arc (own same.symm)
      exact harmless.acyclic my [] 0 (Walk.nil my) (Nat.zero_le _) [my] (List.cons_ne_nil my []) free
  · exact absurd (aborted.symm.trans other) nofun

/-- The heads of all links. -/
def heads (db : LsTopoMap) : Finset ℕ := (db.entries.flatMap fun e => e.2.map LsLinkState.neighborId).toFinset

theorem mem_heads {a b x : ℕ} (arc : Arc db a b x) : b ∈ heads db := by
  obtain ⟨link, member, _, rfl, _⟩ := arc
  unfold links at member
  rcases Option.eq_none_or_eq_some (db.find a) with none | ⟨lsl, found⟩
  · rw [none] at member
    exact absurd member List.not_mem_nil
  · rw [found] at member
    exact List.mem_toFinset.mpr (List.mem_flatMap.mpr ⟨(a, lsl), SortedMap.mem_entries.mpr found, List.mem_map_of_mem member⟩)

open Classical in
/-- The nodes that can be reached at no cost. -/
noncomputable def free (db : LsTopoMap) (w : ℕ) : Finset ℕ := (heads db).filter fun v => ∃ m, m ≠ [] ∧ Walk (Arc db) w m v 0

theorem mem_free {v : ℕ} : v ∈ free db w ↔ v ∈ heads db ∧ ∃ m, m ≠ [] ∧ Walk (Arc db) w m v 0 := by
  classical
  exact Finset.mem_filter

/-- Less with every link that costs something, and with every other one that is on no cycle. -/
noncomputable def rank (db : LsTopoMap) (w c : ℕ) : ℕ := (LS_MAX_COST + 1 - c) * ((heads db).card + 1) + (free db w).card

theorem rank_costly {x : ℕ} (costs : 0 < x) (within : x + c ≤ LS_MAX_COST + 1) : rank db w (x + c) < rank db d c := by
  have few : (free db w).card ≤ (heads db).card := Finset.card_le_card fun v member => (mem_free.mp member).1
  have less : LS_MAX_COST + 1 - (x + c) + 1 ≤ LS_MAX_COST + 1 - c := by omega
  calc rank db w (x + c) < (LS_MAX_COST + 1 - (x + c) + 1) * ((heads db).card + 1) := by
        rw [rank, add_one_mul]
        omega
    _ ≤ (LS_MAX_COST + 1 - c) * ((heads db).card + 1) := Nat.mul_le_mul_right _ less
    _ ≤ rank db d c := Nat.le_add_right _ _

theorem rank_free (arc : Arc db d w 0) (acyclic : ∀ m, m ≠ [] → ¬ Walk (Arc db) w m w 0) : rank db w c < rank db d c := by
  have fewer : (free db w).card < (free db d).card := by
    refine Finset.card_lt_card (Finset.ssubset_iff_of_subset (fun v member => ?_) |>.mpr ⟨w, ?_, fun member => ?_⟩)
    · obtain ⟨inside, m, _, walk⟩ := mem_free.mp member
      refine mem_free.mpr ⟨inside, w :: m, List.cons_ne_nil w m, ?_⟩
      have longer := Walk.cons arc walk
      rwa [add_zero] at longer
    · exact mem_free.mpr ⟨mem_heads arc, [w], List.cons_ne_nil w [], Walk.arc arc⟩
    · obtain ⟨_, m, some, walk⟩ := mem_free.mp member
      exact acyclic m some walk
  exact Nat.add_lt_add_left fewer _

/-- A turn takes a path out, and the paths that it leads to are of lower rank. -/
theorem Settled.turn_spends (harmless : Harmless db my) (settled : Settled db my none level tentative paths) {after paths' : LsPaths}
    (turned : turn db my (.running tentative paths) = .running after paths') :
    WorkList.Spent (work (rank db) (heads db) tentative) (work (rank db) (heads db) after) := by
  rcases settled.turn_cases with ⟨_, other⟩ | ⟨other, _⟩ | ⟨d, ep, hop, rest, tentative', taken, ⟨_, other⟩ | ⟨valid, running⟩⟩
  · exact absurd (turned.symm.trans other) nofun
  · exact absurd (turned.symm.trans other) nofun
  · exact absurd (turned.symm.trans other) nofun
  · obtain ⟨rfl, rfl⟩ := Outcome.running.inj (turned.symm.trans running)
    obtain ⟨⟨⟨l, walk⟩, _⟩, _⟩ := (settled.todo d ep taken.found).2.2 hop taken.member
    have inside : d ∈ heads db := by
      obtain ⟨a, x, arc⟩ := walk.last (List.cons_ne_nil hop l)
      exact mem_heads arc
    have others : ∀ w, w ≠ d → tentative'.find w = tentative.find w := fun w other => by rw [taken.popped, if_neg other]
    obtain ⟨same, before, later⟩ := work_change (rank db) (heads db) inside others
    refine ⟨rank db d ep.cost, work (rank db) (heads db) tentative', ?_, expanded_grown fun link known up better => ?_⟩
    · rw [before, later, taken.found, taken.popped, if_pos rfl, ← Multiset.cons_add]
      refine congrArg (· + same) ?_
      rw [item, Option.elim_some, taken.split, List.length_cons, Multiset.replicate_succ]
      split_ifs with last
      · rw [last]
        rfl
      · rfl
    · have cost : (paths.insertPath ⟨d, ep.cost, hop⟩).lookupCost d = ep.cost := by
        rw [LsPaths.lookupCost_some ((settled.find_insert taken d).trans (if_pos rfl))]
      rw [cost] at better ⊢
      have arc : Arc db d link.neighborId link.cost := ⟨link, known, up, rfl, rfl⟩
      refine ⟨mem_heads arc, ?_⟩
      rcases Nat.eq_zero_or_pos link.cost with none | costs
      · rw [none] at arc ⊢
        rw [zero_add]
        exact rank_free arc (harmless.acyclic _ _ _ (walk.snoc arc) taken.below)
      · exact rank_costly costs (better.trans ((settled.pop taken valid).lookup_le _))

/-- The rank of all that is left to do. -/
noncomputable def load (db : LsTopoMap) : Outcome → Multiset ℕ
  | .running tentative _ => work (rank db) (heads db) tentative
  | _ => 0

def Running (o : Outcome) : Prop := ∃ tentative paths, o = .running tentative paths

/-- No turn aborts. -/
def Sound (db : LsTopoMap) (my : ℕ) (o : Outcome) : Prop := Along db my (fun _ _ => True) o ∧ o ≠ .aborted

theorem start_sound (db : LsTopoMap) (my : ℕ) : Sound db my (start db my) := by
  refine ⟨start_along trivial, fun aborted => ?_⟩
  obtain ⟨_, _, _, running | ⟨returned, _⟩⟩ := start_settled db my
  · exact absurd (aborted.symm.trans running) nofun
  · exact absurd (aborted.symm.trans returned) nofun

theorem turn_sound (harmless : Harmless db my) (o : Outcome) (sound : Sound db my o) : Sound db my (turn db my o) := by
  obtain ⟨along, goes⟩ := sound
  refine ⟨turn_along (fun _ _ _ _ _ _ _ _ _ _ _ _ => trivial) o along, ?_⟩
  cases o with
  | running tentative paths =>
    obtain ⟨level, settled, _⟩ := along
    exact settled.turn_goes harmless
  | returned paths => exact goes
  | aborted => exact goes

theorem computeRoutes_returns (harmless : Harmless db my) : ∃ n paths, computeRoutes db my n = .returned paths := by
  have spends : ∀ o, Sound db my o → Running o → Running (turn db my o) → WorkList.Spent (load db o) (load db (turn db my o)) := by
    rintro o ⟨along, _⟩ ⟨tentative, paths, rfl⟩ ⟨after, paths', turned⟩
    obtain ⟨level, settled, _⟩ := along
    rw [turned]
    exact settled.turn_spends harmless turned
  have kept : ∀ n, Sound db my (computeRoutes db my n) := fun n => by
    induction n with
    | zero => exact start_sound db my
    | succ n ih =>
      rw [computeRoutes, Function.iterate_succ_apply']
      exact turn_sound harmless _ ih
  obtain ⟨n, stopped⟩ := WorkList.stops (turn db my) Running (load db) (fun o sound _ => turn_sound harmless o sound) spends
    (start_sound db my)
  refine ⟨n, ?_⟩
  rcases same : computeRoutes db my n with ⟨tentative, paths⟩ | paths | _
  · exact absurd ⟨tentative, paths, same⟩ stopped
  · exact ⟨paths, rfl⟩
  · exact absurd same (kept n).2

end Run

end Ns2.LsRouting
