import Ns2.Library.ShortestPath
import Ns2.Routing.ComputeRoutes

namespace Ns2.LsRouting

def links (db : LsTopoMap) (a : ℕ) : List LsLinkState := (db.find a).getD []

/-- A link that is up, and its cost. -/
def Arc (db : LsTopoMap) (a b x : ℕ) : Prop := ∃ link ∈ links db a, link.status = .up ∧ link.neighborId = b ∧ link.cost = x

/-- There is a walk to `w` of cost `c` with `h` as its first step. -/
def Via (db : LsTopoMap) (my w c h : ℕ) : Prop := (∃ l, Walk (Arc db) my (h :: l) w c) ∧ (h = my → Arc db my my 0)

/-- What is known of a path in the tentative ones, when the paths cost `level` at most. -/
def Tentative (db : LsTopoMap) (my : ℕ) (paths : LsPaths) (level w c h : ℕ) : Prop :=
  Via db my w c h ∧ c ≤ LS_MAX_COST + 1 ∧ level ≤ c ∧ ∀ ep, paths.find w = some ep → ep.cost = c

/-- The next hops for a link to `w` of the node `u`. -/
def through (my : ℕ) (paths : LsPaths) (u w : ℕ) : List ℕ := if u = my then [w] else paths.hops u

def Covered (tentative paths : LsPaths) (w c h : ℕ) : Prop := LS_MAX_COST + 1 < c ∨ Offered paths w c h ∨ Offered tentative w c h

/-- The links of all nodes of the paths but `pending` have been gone through. -/
structure Settled (db : LsTopoMap) (my : ℕ) (pending : Option ℕ) (level : ℕ) (tentative paths : LsPaths) : Prop where
  self : ∃ hops, paths.find my = some ⟨0, hops⟩
  done : Filled (fun w c h => w ≠ my → Via db my w c h ∧ c ≤ LS_MAX_COST ∧ w ≠ LS_INVALID_NODE_ID) paths
  least : ∀ w ep, paths.find w = some ep → Least (Arc db) my w ep.cost
  low : ∀ w ep, paths.find w = some ep → ep.cost ≤ level
  todo : Filled (Tentative db my paths level) tentative
  covered : ∀ u ep, some u ≠ pending → paths.find u = some ep → ∀ w x, Arc db u w x → ∀ h ∈ through my paths u w,
    Covered tentative paths w (ep.cost + x) h

section Expansion

variable {db : LsTopoMap} {my d w c h level : ℕ} {tentative paths : LsPaths} {lsl : List LsLinkState} {link : LsLinkState} {ep : LsEqualPaths}

/-- The tentative paths after step 2. -/
def expanded (my : ℕ) (paths : LsPaths) (d : ℕ) (lsl : List LsLinkState) (tentative : LsPaths) : LsPaths :=
  lsl.foldl (relax my paths d (paths.hops d)) tentative

theorem relax_cases (my : ℕ) (paths : LsPaths) (d : ℕ) (tentative : LsPaths) (link : LsLinkState) :
    relax my paths d (paths.hops d) tentative link = tentative ∧
      (link.status = .up → paths.lookupCost link.neighborId < link.cost + paths.lookupCost d) ∨
    relax my paths d (paths.hops d) tentative link = tentative.insertNextHopList link.neighborId (link.cost + paths.lookupCost d)
        (through my paths d link.neighborId) ∧ link.status = .up ∧
      link.cost + paths.lookupCost d ≤ paths.lookupCost link.neighborId := by
  unfold relax
  by_cases up : link.status = .up
  · rw [if_neg (not_not.mpr up)]
    dsimp only
    by_cases worse : paths.lookupCost link.neighborId < link.cost + paths.lookupCost d
    · rw [if_pos worse]
      exact Or.inl ⟨rfl, fun _ => worse⟩
    · rw [if_neg worse]
      exact Or.inr ⟨rfl, up, not_lt.mp worse⟩
  · rw [if_pos up]
    exact Or.inl ⟨rfl, fun up' => absurd up' up⟩

theorem expand_expanded (tentative : LsPaths) (found : paths.find d = some ep) :
    expand my tentative paths d lsl = .running (expanded my paths d lsl tentative) paths := by
  unfold expand
  by_cases own : d = my
  · have same : relax my paths d [] = relax my paths d (paths.hops d) := by
      funext tentative link
      unfold relax
      rw [if_pos own, if_pos own]
    rw [if_pos own, expanded, ← same]
  · rw [if_neg own, LsPaths.lookupNextHopList, found, expanded, LsPaths.hops_some found]
    rfl

theorem expanded_filled {Q : ℕ → ℕ → ℕ → Prop} (filled : Filled Q tentative) (hop : ∀ w, through my paths d w ≠ [])
    (distinct : ∀ w, (through my paths d w).Nodup)
    (meets : ∀ link ∈ lsl, link.status = .up → link.cost + paths.lookupCost d ≤ paths.lookupCost link.neighborId →
      ∀ h ∈ through my paths d link.neighborId, Q link.neighborId (link.cost + paths.lookupCost d) h) :
    Filled Q (expanded my paths d lsl tentative) := by
  refine Sweep.foldl_kept (P := Filled Q) (fun t link member before => ?_) filled
  rcases relax_cases my paths d t link with ⟨same, _⟩ | ⟨added, up, better⟩
  · rwa [same]
  · rw [added]
    exact before.insert (hop _) (distinct _) (meets link member up better)

theorem relax_offered (offered : Offered tentative w c h) (link : LsLinkState) :
    Offered (relax my paths d (paths.hops d) tentative link) w c h := by
  rcases relax_cases my paths d tentative link with ⟨same, _⟩ | ⟨added, _⟩
  · rwa [same]
  · rw [added]
    exact offered.insert

theorem expanded_offered (offered : Offered tentative w c h) : Offered (expanded my paths d lsl tentative) w c h :=
  Sweep.foldl_kept (P := fun t => Offered t w c h) (fun _ link _ before => relax_offered before link) offered

theorem expanded_covers (member : link ∈ lsl) (up : link.status = .up)
    (better : link.cost + paths.lookupCost d ≤ paths.lookupCost link.neighborId) (hop : h ∈ through my paths d link.neighborId) :
    Offered (expanded my paths d lsl tentative) link.neighborId (link.cost + paths.lookupCost d) h := by
  obtain ⟨before, after, rfl⟩ := List.append_of_mem member
  rw [expanded, List.foldl_append, List.foldl_cons]
  have turn : Offered (relax my paths d (paths.hops d) (before.foldl (relax my paths d (paths.hops d)) tentative) link)
      link.neighborId (link.cost + paths.lookupCost d) h := by
    rcases relax_cases my paths d (before.foldl (relax my paths d (paths.hops d)) tentative) link with ⟨_, worse⟩ | ⟨added, _⟩
    · exact absurd better (not_le.mpr (worse up))
    · rw [added]
      exact offered_insert _ _ _ hop
  exact expanded_offered turn

theorem expanded_grown {rank : ℕ → ℕ → ℕ} {nodes : Finset ℕ} {r : ℕ}
    (lower : ∀ link ∈ lsl, link.status = .up → link.cost + paths.lookupCost d ≤ paths.lookupCost link.neighborId →
      link.neighborId ∈ nodes ∧ rank link.neighborId (link.cost + paths.lookupCost d) < r) :
    WorkList.Grown r (work rank nodes tentative) (work rank nodes (expanded my paths d lsl tentative)) := by
  refine Sweep.foldl_kept (P := fun t => WorkList.Grown r (work rank nodes tentative) (work rank nodes t)) (fun t link member before => ?_)
    (WorkList.Grown.of_le le_rfl)
  rcases relax_cases my paths d t link with ⟨same, _⟩ | ⟨added, up, better⟩
  · rwa [same]
  · obtain ⟨inside, less⟩ := lower link member up better
    rw [added]
    exact before.trans (insert_grown inside less)

end Expansion

section Settling

variable {db : LsTopoMap} {my d w c h level : ℕ} {pending : Option ℕ} {tentative paths : LsPaths} {ep : LsEqualPaths} {l : List ℕ}

theorem arc_nonneg (a b x : ℕ) (_ : Arc db a b x) : 0 ≤ x := Nat.zero_le x

theorem Settled.cost (settled : Settled db my pending level tentative paths) (found : paths.find w = some ep) : ep.cost ≤ LS_MAX_COST := by
  by_cases own : w = my
  · obtain ⟨hops, self⟩ := settled.self
    rw [own, self] at found
    cases Option.some.inj found
    exact Nat.zero_le _
  · obtain ⟨some, _, good⟩ := settled.done w ep found
    obtain ⟨h, member⟩ := List.exists_mem_of_ne_nil _ some
    exact (good h member own).2.1

theorem Settled.lookup_le (settled : Settled db my pending level tentative paths) (w : ℕ) : paths.lookupCost w ≤ LS_MAX_COST + 1 := by
  rcases Option.eq_none_or_eq_some (paths.find w) with none | ⟨ep, found⟩
  · exact (LsPaths.lookupCost_none none).le
  · rw [LsPaths.lookupCost_some found]
    exact (settled.cost found).trans (Nat.le_succ _)

theorem Settled.through_some (settled : Settled db my pending level tentative paths) (found : paths.find d = some ep) (w : ℕ) :
    through my paths d w ≠ [] ∧ (through my paths d w).Nodup := by
  unfold through
  split_ifs
  · exact ⟨List.cons_ne_nil w [], List.nodup_singleton w⟩
  · rw [LsPaths.hops_some found]
    obtain ⟨some, distinct, _⟩ := settled.done d ep found
    exact ⟨some, distinct⟩

/-- Where the tentative paths cost more than a walk, the walk has been settled. -/
theorem Settled.reach (bound : ℕ) (settled : Settled db my none level tentative paths) (high : ∀ w ep, tentative.find w = some ep → bound < ep.cost)
    (within : bound ≤ LS_MAX_COST + 1) (walk : Walk (Arc db) my l w c) (less : c ≤ bound) :
    ∃ ep, paths.find w = some ep ∧ ep.cost ≤ c := by
  induction l using List.reverseRecOn generalizing w c with
  | nil =>
    obtain ⟨rfl, rfl⟩ := walk.nil_inv
    obtain ⟨hops, self⟩ := settled.self
    exact ⟨_, self, le_rfl⟩
  | append_singleton l v ih =>
    obtain ⟨rfl, u, y, x, first, arc, rfl⟩ := walk.snoc_inv
    obtain ⟨before, found, cheap⟩ := ih first (by omega)
    obtain ⟨h, member⟩ := List.exists_mem_of_ne_nil _ (settled.through_some found w).1
    rcases settled.covered u before nofun found w x arc h member with above | ⟨ep, there, less⟩ | ⟨ep, there, less⟩
    · omega
    · exact ⟨ep, there, by omega⟩
    · have more := high w ep there
      omega

/-- The first path for a node in the tentative ones is a cheapest one when none costs less. -/
theorem Settled.pop_least (settled : Settled db my none level tentative paths) (found : tentative.find d = some ep)
    (minimal : ∀ w other, tentative.find w = some other → ep.cost ≤ other.cost) : Least (Arc db) my d ep.cost := by
  obtain ⟨some, _, good⟩ := settled.todo d ep found
  obtain ⟨h, member⟩ := List.exists_mem_of_ne_nil _ some
  obtain ⟨⟨⟨l, walk⟩, _⟩, top, _, same⟩ := good h member
  refine ⟨⟨h :: l, walk⟩, fun m y other => ?_⟩
  by_contra less
  obtain ⟨before, there, cheap⟩ := settled.reach y (fun w o found => lt_of_lt_of_le (not_le.mp less) (minimal w o found))
    (by omega) other le_rfl
  have cost := same before there
  omega

/-- A path of least cost is taken out of the tentative ones: `hop` from those of `d`. -/
structure Taken (before : LsPaths) (d : ℕ) (ep : LsEqualPaths) (hop : ℕ) (rest : List ℕ) (after : LsPaths) : Prop where
  found : before.find d = some ep
  split : ep.nextHopList = hop :: rest
  below : ep.cost ≤ LS_MAX_COST
  minimal : ∀ w other, before.find w = some other → ep.cost ≤ other.cost
  popped : ∀ w, after.find w = if w = d then if rest = [] then none else some ⟨ep.cost, rest⟩ else before.find w

theorem Taken.member {hop : ℕ} {rest : List ℕ} {tentative' : LsPaths} (taken : Taken tentative d ep hop rest tentative') :
    hop ∈ ep.nextHopList := by
  rw [taken.split]
  exact List.mem_cons_self

theorem Settled.find_insert {hop : ℕ} {rest : List ℕ} {tentative' : LsPaths} (settled : Settled db my none level tentative paths)
    (taken : Taken tentative d ep hop rest tentative') (w : ℕ) :
    (paths.insertPath ⟨d, ep.cost, hop⟩).find w =
      if w = d then some ⟨ep.cost, appendUnique (paths.hops d) [hop]⟩ else paths.find w :=
  LsPaths.find_insertPath fun old there => ((settled.todo d ep taken.found).2.2 hop taken.member).2.2.2 old there

theorem Settled.pop {hop : ℕ} {rest : List ℕ} {tentative' : LsPaths} (settled : Settled db my none level tentative paths)
    (taken : Taken tentative d ep hop rest tentative') (valid : d ≠ LS_INVALID_NODE_ID) :
    Settled db my (some d) ep.cost tentative' (paths.insertPath ⟨d, ep.cost, hop⟩) := by
  have inserted := settled.find_insert taken
  obtain ⟨found, split, below, minimal, popped⟩ := taken
  obtain ⟨_, distinct, good⟩ := settled.todo d ep found
  rw [split] at distinct good
  have least := settled.pop_least found minimal
  have known : ∀ old, paths.find d = some old → old.cost = ep.cost := (good hop List.mem_cons_self).2.2.2
  have bound : level ≤ ep.cost := (good hop List.mem_cons_self).2.2.1
  have grows : ∀ w old, paths.find w = some old → ∃ new, (paths.insertPath ⟨d, ep.cost, hop⟩).find w = some new ∧ new.cost = old.cost ∧
      ∀ h ∈ old.nextHopList, h ∈ new.nextHopList := by
    intro w old there
    rw [inserted]
    by_cases own : w = d
    · rw [own] at there
      rw [if_pos own, ← LsPaths.hops_some there]
      exact ⟨_, rfl, (known old there).symm, fun h member => mem_appendUnique.mpr (Or.inl member)⟩
    · rw [if_neg own]
      exact ⟨old, there, rfl, fun h member => member⟩
  have throughs : ∀ u w, u ≠ d → through my (paths.insertPath ⟨d, ep.cost, hop⟩) u w = through my paths u w := fun u w other => by
    rw [through, through, LsPaths.hops, LsPaths.lookupNextHopList, inserted, if_neg other]
    rfl
  refine ⟨?_, fun w new there => ?_, fun w new there => ?_, fun w new there => ?_, fun w new there => ?_, fun u new other there w x arc h member => ?_⟩
  · obtain ⟨hops, self⟩ := settled.self
    obtain ⟨new, there, cost, _⟩ := grows my _ self
    exact ⟨new.nextHopList, there.trans (by rw [← show new.cost = 0 from cost])⟩
  · rw [inserted] at there
    split_ifs at there with own
    · subst own
      cases Option.some.inj there
      refine ⟨fun empty => ?_, appendUnique_nodup ?_, fun h member other => ?_⟩
      · have last : hop ∈ appendUnique (paths.hops w) [hop] := mem_appendUnique.mpr (Or.inr List.mem_cons_self)
        rw [show appendUnique (paths.hops w) [hop] = [] from empty] at last
        exact List.not_mem_nil last
      · rcases Option.eq_none_or_eq_some (paths.find w) with none | ⟨old, there⟩
        · rw [LsPaths.hops, LsPaths.lookupNextHopList, none]
          exact List.nodup_nil
        · rw [LsPaths.hops_some there]
          exact (settled.done w old there).2.1
      · rcases mem_appendUnique.mp member with before | last
        · rcases Option.eq_none_or_eq_some (paths.find w) with none | ⟨old, there⟩
          · rw [LsPaths.hops, LsPaths.lookupNextHopList, none] at before
            exact absurd before List.not_mem_nil
          · rw [LsPaths.hops_some there] at before
            have via := ((settled.done w old there).2.2 h before other).1
            rw [known old there] at via
            exact ⟨via, below, valid⟩
        · rw [List.mem_singleton.mp last]
          exact ⟨(good hop List.mem_cons_self).1, below, valid⟩
    · exact settled.done w new there
  · rw [inserted] at there
    split_ifs at there with own
    · subst own
      cases Option.some.inj there
      exact least
    · exact settled.least w new there
  · rw [inserted] at there
    split_ifs at there with own
    · cases Option.some.inj there
      exact le_rfl
    · exact (settled.low w new there).trans bound
  · rw [popped] at there
    split_ifs at there with own last
    · cases Option.some.inj there
      refine ⟨last, (List.nodup_cons.mp distinct).2, fun h member => ?_⟩
      obtain ⟨via, top, _⟩ := good h (List.mem_cons_of_mem hop member)
      refine ⟨own ▸ via, top, le_rfl, fun entry there => ?_⟩
      rw [inserted, if_pos own] at there
      cases Option.some.inj there
      rfl
    · obtain ⟨some, distinct, known⟩ := settled.todo w new there
      refine ⟨some, distinct, fun h member => ?_⟩
      obtain ⟨via, top, _, same⟩ := known h member
      refine ⟨via, top, minimal w new there, fun entry inside => ?_⟩
      rw [inserted, if_neg own] at inside
      exact same entry inside
  · have apart : u ≠ d := fun same => other (congrArg some same)
    rw [inserted, if_neg apart] at there
    rw [throughs u w apart] at member
    rcases settled.covered u new (Option.some_ne_none u) there w x arc h member with above | ⟨old, there, place⟩ | ⟨old, there, place⟩
    · exact Or.inl above
    · obtain ⟨entry, inside, cost, more⟩ := grows w old there
      exact Or.inr (Or.inl ⟨entry, inside, place.imp (fun less => cost.trans_lt less) fun same => ⟨cost.trans same.1, more h same.2⟩⟩)
    · by_cases own : w = d
      · subst own
        cases Option.some.inj (there.symm.trans found)
        have entry := (inserted w).trans (if_pos rfl)
        rcases place with less | ⟨same, inside⟩
        · exact Or.inr (Or.inl ⟨_, entry, Or.inl less⟩)
        · rw [split] at inside
          rcases List.mem_cons.mp inside with rfl | later
          · exact Or.inr (Or.inl ⟨_, entry, Or.inr ⟨same, mem_appendUnique.mpr (Or.inr List.mem_cons_self)⟩⟩)
          · refine Or.inr (Or.inr ⟨⟨ep.cost, rest⟩, ?_, Or.inr ⟨same, later⟩⟩)
            rw [popped, if_pos rfl, if_neg (List.ne_nil_of_mem later)]
      · refine Or.inr (Or.inr ⟨old, ?_, place⟩)
        rw [popped, if_neg own]
        exact there

theorem Via.extend (via : Via db my d c h) {x : ℕ} (arc : Arc db d w x) : Via db my w (x + c) h := by
  obtain ⟨⟨l, walk⟩, own⟩ := via
  rw [add_comm]
  exact ⟨⟨l ++ [w], walk.snoc arc⟩, own⟩

theorem Settled.link_tentative (settled : Settled db my pending level tentative paths) (found : paths.find d = some ep)
    (now : ep.cost = level) {x : ℕ} (arc : Arc db d w x) (better : x + paths.lookupCost d ≤ paths.lookupCost w)
    (member : h ∈ through my paths d w) : Tentative db my paths level w (x + paths.lookupCost d) h := by
  have cost := LsPaths.lookupCost_some found
  refine ⟨?_, better.trans (settled.lookup_le w), by omega, fun entry there => ?_⟩
  · unfold through at member
    split_ifs at member with own
    · subst own
      rw [List.mem_singleton.mp member]
      obtain ⟨hops, self⟩ := settled.self
      rw [LsPaths.lookupCost_some self] at better ⊢
      refine ⟨⟨[], Walk.arc arc⟩, fun back => ?_⟩
      subst back
      rw [LsPaths.lookupCost_some self] at better
      rwa [show x = 0 from Nat.le_zero.mp better] at arc
    · rw [cost]
      rw [LsPaths.hops_some found] at member
      exact ((settled.done d ep found).2.2 h member own).1.extend arc
  · have low := settled.low w entry there
    rw [LsPaths.lookupCost_some there] at better
    omega

theorem Settled.expand (settled : Settled db my (some d) level tentative paths) (found : paths.find d = some ep) (now : ep.cost = level) :
    Settled db my none level (expanded my paths d (links db d) tentative) paths := by
  have cost := LsPaths.lookupCost_some found
  refine { settled with
    todo := expanded_filled settled.todo (fun w => (settled.through_some found w).1) (fun w => (settled.through_some found w).2)
      fun link member up better h hop => settled.link_tentative found now ⟨link, member, up, rfl, rfl⟩ better hop
    covered := fun u entry _ there w x arc h member => ?_ }
  by_cases own : u = d
  · subst own
    cases Option.some.inj (there.symm.trans found)
    obtain ⟨link, inside, up, rfl, rfl⟩ := arc
    by_cases better : link.cost + paths.lookupCost u ≤ paths.lookupCost link.neighborId
    · have covers : Offered (expanded my paths u (links db u) tentative) _ _ h := expanded_covers inside up better member
      rw [cost, add_comm] at covers
      exact Or.inr (Or.inr covers)
    · rw [cost, add_comm] at better
      rcases Option.eq_none_or_eq_some (paths.find link.neighborId) with none | ⟨old, known⟩
      · rw [LsPaths.lookupCost_none none] at better
        exact Or.inl (not_le.mp better)
      · rw [LsPaths.lookupCost_some known] at better
        exact Or.inr (Or.inl ⟨old, known, Or.inl (not_le.mp better)⟩)
  · have other : some u ≠ some d := fun same => own (Option.some.inj same)
    exact (settled.covered u entry other there w x arc h member).imp_right (Or.imp_right expanded_offered)

theorem toSelf_find (my w : ℕ) : (toSelf my).find w = if w = my then some ⟨0, [my]⟩ else none := by
  rw [toSelf, SortedMap.find_insert]
  rfl

theorem toSelf_settled (db : LsTopoMap) (my : ℕ) : Settled db my (some my) 0 SortedMap.empty (toSelf my) := by
  have only : ∀ w ep, (toSelf my).find w = some ep → w = my ∧ ep = ⟨0, [my]⟩ := fun w ep found => by
    rw [toSelf_find] at found
    split_ifs at found with own
    exact ⟨own, (Option.some.inj found).symm⟩
  refine ⟨⟨[my], (toSelf_find my my).trans (if_pos rfl)⟩, fun w ep found => ?_, fun w ep found => ?_, fun w ep found => ?_, nofun,
    fun u ep other found => absurd (congrArg some (only u ep found).1) other⟩
  · obtain ⟨own, rfl⟩ := only w ep found
    exact ⟨List.cons_ne_nil my [], List.nodup_singleton my, fun _ _ other => absurd own other⟩
  · obtain ⟨rfl, rfl⟩ := only w ep found
    exact Least.self arc_nonneg w
  · obtain ⟨rfl, rfl⟩ := only w ep found
    exact le_rfl

theorem start_settled (db : LsTopoMap) (my : ℕ) : ∃ tentative, Settled db my none 0 tentative (toSelf my) ∧
    tentative = expanded my (toSelf my) my (links db my) SortedMap.empty ∧
    (start db my = .running tentative (toSelf my) ∨ start db my = .returned (toSelf my) ∧ tentative = SortedMap.empty) := by
  have self : (toSelf my).find my = some ⟨0, [my]⟩ := (toSelf_find my my).trans (if_pos rfl)
  refine ⟨_, (toSelf_settled db my).expand self rfl, rfl, ?_⟩
  unfold start links
  rcases Option.eq_none_or_eq_some (db.find my) with none | ⟨lsl, found⟩
  · rw [none]
    exact Or.inr ⟨rfl, rfl⟩
  · rw [found]
    exact Or.inl (expand_expanded SortedMap.empty self)

theorem Settled.turn_cases (settled : Settled db my none level tentative paths) :
    (tentative.entries = [] ∧ turn db my (.running tentative paths) = .returned paths) ∨
    (turn db my (.running tentative paths) = .aborted ∧ tentative.entries ≠ [] ∧
      ∀ w ep, tentative.find w = some ep → LS_MAX_COST < ep.cost) ∨
    ∃ d ep hop rest tentative', Taken tentative d ep hop rest tentative' ∧
      ((d = LS_INVALID_NODE_ID ∨ hop = LS_INVALID_COST) ∧ turn db my (.running tentative paths) = .aborted ∨
        d ≠ LS_INVALID_NODE_ID ∧ turn db my (.running tentative paths) =
          .running (expanded my (paths.insertPath ⟨d, ep.cost, hop⟩) d (links db d) tentative') (paths.insertPath ⟨d, ep.cost, hop⟩)) := by
  by_cases empty : tentative.entries = []
  · exact Or.inl ⟨empty, if_pos empty⟩
  have hopped : tentative.Hopped := fun w ep found => (settled.todo w ep found).1
  have body : turn db my (.running tentative paths) =
      if ¬ tentative.popShortestPath.2.isValid then .aborted
      else (db.find tentative.popShortestPath.2.destination).elim
        (.running tentative.popShortestPath.1 (paths.insertPath tentative.popShortestPath.2)) fun lsl =>
          LsRouting.expand my tentative.popShortestPath.1 (paths.insertPath tentative.popShortestPath.2)
            tentative.popShortestPath.2.destination lsl := by
    unfold turn
    dsimp only
    rw [if_neg empty]
    split_ifs
    · cases db.find tentative.popShortestPath.2.destination <;> rfl
    · rfl
  rcases LsPaths.popShortestPath_cases hopped with ⟨nothing, high⟩ | ⟨d, ep, hop, rest, found, split, below, minimal, path, popped⟩
  · refine Or.inr (Or.inl ⟨?_, empty, high⟩)
    rw [body, nothing]
    exact if_pos (show ¬ LsPath.invalid.isValid = true by decide)
  · have taken : Taken tentative d ep hop rest tentative.popShortestPath.1 := ⟨found, split, below, minimal, popped⟩
    refine Or.inr (Or.inr ⟨d, ep, hop, rest, tentative.popShortestPath.1, taken, ?_⟩)
    rw [body, path]
    by_cases valid : d ≠ LS_INVALID_NODE_ID ∧ ep.cost ≠ LS_INVALID_COST ∧ hop ≠ LS_INVALID_COST
    · refine Or.inr ⟨valid.1, ?_⟩
      rw [if_neg (by simpa [LsPath.isValid] using valid)]
      have entry : (paths.insertPath ⟨d, ep.cost, hop⟩).find d = some ⟨ep.cost, appendUnique (paths.hops d) [hop]⟩ :=
        (settled.find_insert taken d).trans (if_pos rfl)
      dsimp only
      unfold links
      rcases Option.eq_none_or_eq_some (db.find d) with none | ⟨lsl, known⟩
      · rw [none]
        rfl
      · rw [known]
        exact expand_expanded _ entry
    · refine Or.inl ⟨?_, if_pos (by simpa [LsPath.isValid] using valid)⟩
      by_contra! both
      exact valid ⟨both.1, by unfold LS_INVALID_COST; unfold LS_MAX_COST at below; omega, both.2⟩

end Settling

end Ns2.LsRouting
