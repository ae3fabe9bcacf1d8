import Ns2.Routing.ComputeRoutesEnd

namespace Ns2.LsRouting

section Result

variable {db : LsTopoMap} {my a v w c h level : ℕ} {tentative paths : LsPaths} {ep : LsEqualPaths} {l m : List ℕ}

/-- At the end every walk has been settled that costs no more than a missing entry. -/
theorem Settled.found (settled : Settled db my none level tentative paths) (empty : tentative.entries = [])
    (walk : Walk (Arc db) my l w c) (within : c ≤ LS_MAX_COST + 1) : ∃ ep, paths.find w = some ep ∧ ep.cost ≤ c :=
  settled.reach (LS_MAX_COST + 1) (fun w ep found => absurd found (by rw [SortedMap.entries_nil.mp empty w]; nofun)) le_rfl walk within

theorem Settled.offered (settled : Settled db my none level tentative paths) (empty : tentative.entries = []) {u x : ℕ}
    (found : paths.find u = some ep) (arc : Arc db u w x) (hop : h ∈ through my paths u w) (least : Least (Arc db) my w (ep.cost + x))
    (within : ep.cost + x ≤ LS_MAX_COST + 1) : ∃ entry, paths.find w = some entry ∧ h ∈ entry.nextHopList := by
  rcases settled.covered u ep nofun found w x arc h hop with above | ⟨entry, there, place⟩ | ⟨entry, there, _⟩
  · omega
  · have same := least.unique (settled.least w entry there)
    exact ⟨entry, there, (place.resolve_left (by omega)).2⟩
  · rw [SortedMap.entries_nil.mp empty w] at there
    exact absurd there nofun

/-- Every first step of a cheapest walk is among the next hops. -/
theorem Settled.hops_complete (settled : Settled db my none level tentative paths) (empty : tentative.entries = [])
    (acyclic : ∀ m, m ≠ [] → ¬ Walk (Arc db) my m my 0) (walk : Walk (Arc db) my (h :: l) w c) (least : Least (Arc db) my w c)
    (within : c ≤ LS_MAX_COST + 1) : ∃ ep, paths.find w = some ep ∧ h ∈ ep.nextHopList := by
  obtain ⟨hops, self⟩ := settled.self
  induction l using List.reverseRecOn generalizing w c with
  | nil =>
    obtain ⟨c, z, arc, rest, rfl⟩ := walk.cons_inv
    obtain ⟨rfl, rfl⟩ := rest.nil_inv
    rw [add_comm] at least within
    exact settled.offered empty self arc (by rw [through, if_pos rfl]; exact List.mem_singleton_self w) least within
  | append_singleton l v ih =>
    rw [← List.cons_append] at walk
    obtain ⟨rfl, u, y, x, first, arc, rfl⟩ := walk.snoc_inv
    have init := least.init first (Walk.arc arc)
    obtain ⟨before, found, member⟩ := ih first init (by omega)
    have same := init.unique (settled.least u before found)
    have other : u ≠ my := fun own => by
      subst own
      have zero := init.unique (Least.self arc_nonneg u)
      rw [zero] at first
      exact acyclic (h :: l) (List.cons_ne_nil h l) first
    refine settled.offered empty found arc ?_ (same ▸ least) (same ▸ within)
    rw [through, if_neg other, LsPaths.hops_some found]
    exact member

/-- The path of the node to itself is never touched. -/
theorem Harmless.self_kept (harmless : Harmless db my) (n : ℕ) :
    Along db my (fun _ paths => paths.find my = some ⟨0, [my]⟩) (computeRoutes db my n) := by
  refine computeRoutes_along ((toSelf_find my my).trans (if_pos rfl)) (fun tentative paths level d ep hop rest after settled taken _ self => ?_) n
  have other : my ≠ d := fun own => by
    have found := taken.found
    rw [← own, harmless.self_absent settled] at found
    exact absurd found nofun
  rw [settled.find_insert taken, if_neg other]
  exact self

theorem harmless_of_simple (positive : ∀ a b x, Arc db a b x → 0 < x) (ids : ∀ a b x, Arc db a b x → b < LS_INVALID_NODE_ID)
    (below : ∀ l v x, Walk (Arc db) my l v x → (my :: l).Nodup → x < LS_MAX_COST) : Harmless db my where
  acyclic a l x _ _ m steps cycle := lt_irrefl 0 (cycle.positive positive steps)
  sentinel a least := by
    obtain ⟨l, walk⟩ := least.walk
    obtain ⟨m, y, simple, distinct, less⟩ := walk.simple arc_nonneg
    have low := below m a y simple distinct
    have high := least.least m y simple
    omega
  ids l x walk _ := by
    by_cases steps : l = []
    · subst steps
      exact walk.nil_inv.1.symm
    · obtain ⟨d, y, arc⟩ := walk.last steps
      exact absurd (ids _ _ _ arc) (lt_irrefl _)

theorem computeRoutes_table (db : LsTopoMap) (my : ℕ) (positive : ∀ a b x, Arc db a b x → 0 < x)
    (ids : ∀ a b x, Arc db a b x → b < LS_INVALID_NODE_ID)
    (below : ∀ l v x, Walk (Arc db) my l v x → (my :: l).Nodup → x < LS_MAX_COST) :
    ∃ turns table, computeRoutes db my turns = .returned table ∧ table.find my = some ⟨0, [my]⟩ ∧ ∀ v, v ≠ my →
      (table.find v = none ↔ ∀ l x, ¬ Walk (Arc db) my l v x) ∧
      ∀ ep, table.find v = some ep → Least (Arc db) my v ep.cost ∧ ep.nextHopList.Nodup ∧
        ∀ h, h ∈ ep.nextHopList ↔ ∃ l, Walk (Arc db) my (h :: l) v ep.cost := by
  have harmless := harmless_of_simple positive ids below
  obtain ⟨turns, table, returned⟩ := computeRoutes_returns harmless
  have along := harmless.self_kept turns
  rw [returned] at along
  obtain ⟨level, tentative, settled, empty, self⟩ := along
  refine ⟨turns, table, returned, self, fun v other => ⟨⟨fun none l x walk => ?_, fun unreachable => ?_⟩, fun ep found => ?_⟩⟩
  · obtain ⟨m, y, simple, distinct, _⟩ := walk.simple arc_nonneg
    have low := below m v y simple distinct
    obtain ⟨ep, found, _⟩ := settled.found empty simple (by omega)
    exact absurd (none.symm.trans found) nofun
  · rcases Option.eq_none_or_eq_some (table.find v) with none | ⟨ep, found⟩
    · exact none
    · obtain ⟨l, walk⟩ := (settled.least v ep found).walk
      exact absurd walk (unreachable l ep.cost)
  · have least := settled.least v ep found
    obtain ⟨_, distinct, good⟩ := settled.done v ep found
    refine ⟨least, distinct, fun h => ⟨fun member => (good h member other).1.1, fun ⟨l, walk⟩ => ?_⟩⟩
    obtain ⟨entry, there, member⟩ := settled.hops_complete empty
      (fun m steps => harmless.acyclic my [] 0 (Walk.nil my) (Nat.zero_le _) m steps) walk least
      ((settled.cost found).trans (Nat.le_succ _))
    cases Option.some.inj (there.symm.trans found)
    exact member

/-- Up links of the given neighbours and costs. -/
def upLinks (l : List (ℕ × ℕ)) : List LsLinkState := l.map fun e => ⟨e.1, .up, e.2, 0⟩

/-- Two ways of cost 2 lead from 1 to 4. -/
def diamond : LsTopoMap := (((SortedMap.empty.insert 1 (upLinks [(2, 1), (3, 1)])).insert 2 (upLinks [(1, 1), (4, 1)])).insert 3
  (upLinks [(1, 1), (4, 1)])).insert 4 (upLinks [(2, 1), (5, 2)])

theorem arc_links (arc : Arc db v w c) : ∃ e ∈ db.entries, ∃ link ∈ e.2, link.neighborId = w ∧ link.cost = c := by
  obtain ⟨link, member, _, head, cost⟩ := arc
  unfold links at member
  rcases Option.eq_none_or_eq_some (db.find v) with none | ⟨lsl, found⟩
  · rw [none] at member
    exact absurd member List.not_mem_nil
  · rw [found] at member
    exact ⟨(v, lsl), SortedMap.mem_entries.mpr found, link, member, head, cost⟩

theorem computeRoutes_diamond : ∃ turns table, computeRoutes diamond 1 turns = .returned table ∧ table.find 1 = some ⟨0, [1]⟩ ∧
    ∀ v, v ≠ 1 → (table.find v = none ↔ ∀ l x, ¬ Walk (Arc diamond) 1 l v x) ∧
      ∀ ep, table.find v = some ep → Least (Arc diamond) 1 v ep.cost ∧ ep.nextHopList.Nodup ∧
        ∀ h, h ∈ ep.nextHopList ↔ ∃ l, Walk (Arc diamond) 1 (h :: l) v ep.cost := by
  have all : ∀ e ∈ diamond.entries, ∀ link ∈ e.2, 0 < link.cost ∧ link.neighborId < LS_INVALID_NODE_ID ∧ link.cost ≤ 2 := by decide
  have each : ∀ a b x, Arc diamond a b x → 0 < x ∧ b < LS_INVALID_NODE_ID ∧ x ≤ 2 := by
    intro a b x arc
    obtain ⟨e, member, link, inside, rfl, rfl⟩ := arc_links arc
    exact all e member link inside
  refine computeRoutes_table diamond 1 (fun a b x arc => (each a b x arc).1) (fun a b x arc => (each a b x arc).2.1) fun l v x walk distinct => ?_
  have few : (heads diamond).card • 2 < LS_MAX_COST := by decide +kernel
  exact (walk.cost_le (heads diamond) (Nat.zero_le 2) (fun a b x => mem_heads) (fun a b x arc => (each a b x arc).2.2)
    (List.nodup_cons.mp distinct).2).trans_lt few

end Result

section Cycle

variable {db : LsTopoMap} {my a v w : ℕ} {m : List ℕ}

/-- The nodes that lie on a way from `a` back to it that costs nothing. -/
def Around (db : LsTopoMap) (a v : ℕ) : Prop := (∃ l, Walk (Arc db) a l v 0) ∧ ∃ l, Walk (Arc db) v l a 0

theorem walk_onward (walk : Walk (Arc db) v m a 0) (steps : m ≠ []) : ∃ w, Arc db v w 0 ∧ ∃ l, Walk (Arc db) w l a 0 := by
  obtain ⟨w, l, rfl⟩ := List.exists_cons_of_ne_nil steps
  obtain ⟨y, z, arc, rest, sum⟩ := walk.cons_inv
  have zeros : y = 0 ∧ z = 0 := by omega
  rw [zeros.1] at arc
  rw [zeros.2] at rest
  exact ⟨w, arc, l, rest⟩

theorem Around.onward (around : Around db a v) (cycle : Walk (Arc db) a m a 0) (steps : m ≠ []) : ∃ w, Arc db v w 0 ∧ Around db a w := by
  obtain ⟨⟨l, first⟩, k, second⟩ := around
  obtain ⟨w, arc, rest⟩ : ∃ w, Arc db v w 0 ∧ ∃ l, Walk (Arc db) w l a 0 := by
    by_cases here : k = []
    · subst here
      obtain ⟨rfl, _⟩ := second.nil_inv
      exact walk_onward cycle steps
    · exact walk_onward second here
  exact ⟨w, arc, ⟨l ++ [w], first.snoc arc⟩, rest⟩

theorem Around.least (here : Around db a v) (there : Around db a w) {x y : ℕ} (first : Least (Arc db) my v x)
    (second : Least (Arc db) my w y) : x ≤ y := by
  obtain ⟨l, walk⟩ := second.walk
  obtain ⟨k, back⟩ := there.2
  obtain ⟨n, forth⟩ := here.1
  have whole := (walk.append back).append forth
  rw [add_zero, add_zero] at whole
  exact first.least _ y whole

/-- Once a node of such a cycle has a path, one of its nodes is left to do. -/
def Occupied (db : LsTopoMap) (a : ℕ) (tentative paths : LsPaths) : Prop :=
  (∃ v, Around db a v ∧ paths.find v ≠ none) → ∃ w, Around db a w ∧ tentative.find w ≠ none

theorem Around.expanded {d : ℕ} {tentative paths : LsPaths} (around : Around db a d) (cycle : Walk (Arc db) a m a 0) (steps : m ≠ [])
    (low : ∀ w, Around db a w → paths.lookupCost d ≤ paths.lookupCost w) (hops : ∀ w, through my paths d w ≠ []) :
    ∃ w, Around db a w ∧ (expanded my paths d (links db d) tentative).find w ≠ none := by
  obtain ⟨w, ⟨link, member, up, rfl, zero⟩, next⟩ := around.onward cycle steps
  obtain ⟨h, hop⟩ := List.exists_mem_of_ne_nil _ (hops link.neighborId)
  have better : link.cost + paths.lookupCost d ≤ paths.lookupCost link.neighborId := by
    rw [zero, zero_add]
    exact low _ next
  obtain ⟨ep, found, _⟩ : Offered (LsRouting.expanded my paths d (links db d) tentative) _ _ h := expanded_covers member up better hop
  exact ⟨_, next, by rw [found]; nofun⟩

theorem occupied_start (cycle : Walk (Arc db) a m a 0) (steps : m ≠ []) :
    Occupied db a (expanded my (toSelf my) my (links db my) SortedMap.empty) (toSelf my) := by
  rintro ⟨v, around, found⟩
  have own : v = my := by
    by_contra other
    rw [toSelf_find, if_neg other] at found
    exact found rfl
  subst own
  refine around.expanded cycle steps (fun w _ => ?_) fun w => ?_
  · rw [LsPaths.lookupCost_some ((toSelf_find v v).trans (if_pos rfl))]
    exact Nat.zero_le _
  · rw [through, if_pos rfl]
    exact List.cons_ne_nil w []

theorem occupied_next (cycle : Walk (Arc db) a m a 0) (steps : m ≠ []) : Next db my (Occupied db a) := by
  rintro tentative paths level d ep hop rest after settled taken valid ih ⟨v, around, found⟩
  by_cases own : Around db a d
  · have entry := (settled.find_insert taken d).trans (if_pos rfl)
    have next := settled.pop taken valid
    refine own.expanded cycle steps (fun w other => ?_) fun w => (next.through_some entry w).1
    rw [LsPaths.lookupCost_some entry]
    rcases Option.eq_none_or_eq_some ((paths.insertPath ⟨d, ep.cost, hop⟩).find w) with none | ⟨old, there⟩
    · rw [LsPaths.lookupCost_none none]
      exact taken.below.trans (Nat.le_succ _)
    · rw [LsPaths.lookupCost_some there]
      exact own.least other (next.least d _ entry) (next.least w old there)
  · have other : v ≠ d := fun same => own (same ▸ around)
    rw [settled.find_insert taken, if_neg other] at found
    obtain ⟨w, inside, there⟩ := ih ⟨v, around, found⟩
    have apart : w ≠ d := fun same => own (same ▸ inside)
    obtain ⟨old, known⟩ := Option.ne_none_iff_exists'.mp there
    obtain ⟨h, member⟩ := List.exists_mem_of_ne_nil _ (settled.todo w old known).1
    have before : Offered after w old.cost h := ⟨old, (taken.popped w).trans ((if_neg apart).trans known), Or.inr ⟨rfl, member⟩⟩
    obtain ⟨new, later, _⟩ : Offered (expanded my (paths.insertPath ⟨d, ep.cost, hop⟩) d (links db d) after) w old.cost h :=
      expanded_offered before
    exact ⟨w, inside, by rw [later]; nofun⟩

end Cycle

section Ending

variable {db : LsTopoMap} {my : ℕ}

theorem harmless_of_returned {turns : ℕ} {paths : LsPaths} (returned : computeRoutes db my turns = .returned paths) : Harmless db my := by
  have along : Along db my (fun _ _ => True) (computeRoutes db my turns) :=
    computeRoutes_along trivial (fun _ _ _ _ _ _ _ _ _ _ _ _ => trivial) turns
  rw [returned] at along
  obtain ⟨level, tentative, settled, empty, _⟩ := along
  refine ⟨fun a l x walk within m steps cycle => ?_, fun a least => ?_, fun l x walk within => ?_⟩
  · have around : Along db my (Occupied db a) (computeRoutes db my turns) :=
      computeRoutes_along (occupied_start cycle steps) (occupied_next cycle steps) turns
    rw [returned] at around
    obtain ⟨_, _, settled, empty, progress⟩ := around
    obtain ⟨ep, found, _⟩ := settled.found empty walk (by omega)
    obtain ⟨w, _, some⟩ := progress ⟨a, ⟨⟨[], Walk.nil a⟩, [], Walk.nil a⟩, by rw [found]; nofun⟩
    exact some (SortedMap.entries_nil.mp empty w)
  · obtain ⟨l, walk⟩ := least.walk
    obtain ⟨ep, found, less⟩ := settled.found empty walk le_rfl
    have below := settled.cost found
    have same := least.unique (settled.least a ep found)
    omega
  · by_contra other
    obtain ⟨ep, found, _⟩ := settled.found empty walk (by omega)
    obtain ⟨some, _, good⟩ := settled.done _ ep found
    obtain ⟨h, member⟩ := List.exists_mem_of_ne_nil _ some
    exact (good h member (Ne.symm other)).2.2 rfl

/-- The `pPaths` of the moment. -/
def paths : Outcome → Option LsPaths
  | .running _ paths => some paths
  | .returned paths => some paths
  | .aborted => none

theorem computeRoutes_ends_iff (db : LsTopoMap) (my : ℕ) :
    ((∃ turns table, computeRoutes db my turns = .returned table) ∧
      ∀ turns table, paths (computeRoutes db my turns) = some table → table.find my = some ⟨0, [my]⟩) ↔ Harmless db my := by
  refine ⟨fun ⟨⟨_, _, returned⟩, _⟩ => harmless_of_returned returned, fun harmless =>
    ⟨computeRoutes_returns harmless, fun turns table now => ?_⟩⟩
  have along := harmless.self_kept turns
  rcases same : computeRoutes db my turns with ⟨tentative, other⟩ | other | _
  · rw [same] at along now
    obtain ⟨_, _, self⟩ := along
    exact Option.some.inj now ▸ self
  · rw [same] at along now
    obtain ⟨_, _, _, _, self⟩ := along
    exact Option.some.inj now ▸ self
  · rw [same] at now
    exact absurd now nofun

/-- Two nodes with a link that costs nothing. -/
def pair : LsTopoMap := (SortedMap.empty.insert 0 (upLinks [(1, 0)])).insert 1 (upLinks [(0, 0)])

/-- The path of the node to itself gets another next hop, and the loops go on for ever. -/
theorem computeRoutes_pair : (∀ e ∈ pair.entries, ∀ link ∈ e.2, link.cost ≤ LS_MAX_COST) ∧
    (∃ table, paths (computeRoutes pair 0 2) = some table ∧ table.find 0 = some ⟨0, [0, 1]⟩) ∧
    ∀ turns table, computeRoutes pair 0 turns ≠ .returned table := by
  refine ⟨by decide, ⟨_, rfl, by decide +kernel⟩, fun turns table returned => ?_⟩
  have harmless := harmless_of_returned returned
  have there : Arc pair 0 1 0 := ⟨⟨1, .up, 0, 0⟩, by decide, rfl, rfl, rfl⟩
  have back : Arc pair 1 0 0 := ⟨⟨0, .up, 0, 0⟩, by decide, rfl, rfl, rfl⟩
  exact harmless.acyclic 0 [] 0 (Walk.nil 0) (Nat.zero_le _) [1, 0] (List.cons_ne_nil 1 [0]) (Walk.cons there (Walk.arc back))

end Ending

end Ns2.LsRouting
