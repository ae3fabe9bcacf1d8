import Ns2.Dsr.MobiCache

namespace Ns2

variable {src dst dest : DsrId} {p q path : DsrPath}

/-- The route goes over the link. -/
def UsesLink (src dst : DsrId) (p : DsrPath) : Prop := [src, dst] <:+: ids p

section Paths

theorem ids_append (p q : DsrPath) : ids (p ++ q) = ids p ++ ids q := List.map_append

theorem ids_take (n : ℕ) (p : DsrPath) : ids (p.take n) = (ids p).take n := List.map_take

theorem ids_drop (n : ℕ) (p : DsrPath) : ids (p.drop n) = (ids p).drop n := List.map_drop

theorem length_ids (p : DsrPath) : (ids p).length = p.length := List.length_map _

theorem ids_modify {f : Hop → Hop} (same : ∀ hop, (f hop).id = hop.id) (n : ℕ) (p : DsrPath) : ids (p.modify n f) = ids p := by
  induction p generalizing n with
  | nil => cases n <;> rfl
  | cons hop p ih =>
    cases n with
    | zero => exact congrArg (· :: ids p) (same hop)
    | succ n => exact congrArg (hop.id :: ·) (ih n)

theorem ids_stamp (t : ℚ) (whoFrom : DsrId) (kind : LinkType) (p : DsrPath) : ids (stamp t whoFrom kind p) = ids p := by
  induction p generalizing kind with
  | nil => rfl
  | cons hop p ih => exact congrArg (hop.id :: ·) (ih _)

theorem ids_freshen (p path : DsrPath) : ids (freshen p path) = ids p := by
  fun_induction freshen p path with
  | case1 hop next p hop' next' q same ih =>
    refine (congrArg₂ List.cons ?_ ih : _ :: _ = hop.id :: ids (next :: p))
    split_ifs <;> rfl
  | case2 hop next p hop' next' q other => rfl
  | case3 p q => rfl

theorem agreeing_take (p path : DsrPath) : ids (p.take (agreeing p path)) = ids (path.take (agreeing p path)) := by
  induction p generalizing path with
  | nil =>
    rw [agreeing.eq_def]
    rfl
  | cons hop p ih =>
    cases path with
    | nil =>
      rw [agreeing.eq_def]
      rfl
    | cons hop' path =>
      rw [agreeing]
      split_ifs with same
      · rw [List.take_succ_cons, List.take_succ_cons]
        exact congrArg₂ List.cons same (ih path)
      · rfl

theorem appendAll_eq (p rest : DsrPath) (short : p.length + rest.length ≤ maxSrLen) : appendAll p rest = some (p ++ rest) := by
  induction rest generalizing p with
  | nil => rw [appendAll, List.append_nil]
  | cons hop rest ih =>
    rw [List.length_cons] at short
    rw [appendAll, asserting, if_pos (by omega), ih _ (by rw [List.length_append, List.length_singleton]; omega), List.append_assoc,
      List.singleton_append]

/-- The first place of a link: the path up to there does not use it. -/
theorem linkAt_none (absent : linkAt src dst p = none) : ¬UsesLink src dst p := by
  unfold UsesLink
  induction p with
  | nil => exact fun uses => absurd (List.infix_nil.mp uses) (by simp)
  | cons hop rest ih =>
    cases rest with
    | nil =>
      intro uses
      have short := uses.length_le
      simp [ids] at short
    | cons next p =>
      rw [linkAt] at absent
      split_ifs at absent with here
      intro uses
      rcases List.infix_cons_iff.mp uses with first | later
      · obtain ⟨rest, same⟩ := first
        simp only [List.map_cons, List.cons_append, List.nil_append, List.cons.injEq] at same
        exact here ⟨same.1.symm, same.2.1.symm⟩
      · exact ih (Option.map_eq_none_iff.mp absent) later

theorem linkAt_some {n : ℕ} (found : linkAt src dst p = some n) : linkAt src dst (p.take (n + 1)) = none := by
  induction p generalizing n with
  | nil => cases found
  | cons hop rest ih =>
    cases rest with
    | nil => cases found
    | cons next p =>
      rw [linkAt] at found
      split_ifs at found with here
      · cases Option.some.inj found
        rfl
      · obtain ⟨m, later, same⟩ := Option.map_eq_some_iff.mp found
        subst same
        have rest := ih later
        rw [List.take_succ_cons] at rest ⊢
        rw [List.take_succ_cons, linkAt, if_neg here, rest]
        rfl

theorem truncate_spec (src dst : DsrId) (p : DsrPath) :
    ids (truncate src dst p) <+: ids p ∧ ¬UsesLink src dst (truncate src dst p) := by
  unfold truncate
  cases found : linkAt src dst p with
  | none => exact ⟨List.prefix_rfl, linkAt_none found⟩
  | some n =>
    cases n with
    | zero => exact ⟨List.nil_prefix, fun uses => absurd (List.infix_nil.mp uses) (by simp)⟩
    | succ n =>
      dsimp only
      have same := ids_modify (f := fun hop => { hop with logStat := .unlogged }) (fun _ => rfl) (n + 1) (p.take (n + 2))
      constructor
      · rw [same, ids_take]
        exact List.take_prefix _ _
      · unfold UsesLink
        rw [same]
        exact linkAt_none (linkAt_some found)

end Paths

namespace Cache

/-- The paths of a cache after `addRoute`: as before, or the new one. -/
theorem addRoute_spec (c : Cache) (short : path.length ≤ maxSrLen) : ∃ c' n, c.addRoute path = some (c', n) ∧
    ∀ p ∈ c'.cache, (∃ q ∈ c.cache, ids p = ids q) ∨ ids p = ids path := by
  have placed (d : Cache) (index : ℕ) (merged : DsrPath) (same : d.cache = c.cache)
      (origin : (∃ q ∈ c.cache, ids merged = ids q) ∨ ids merged = ids path) :
      ∀ p ∈ ((d.set index merged).map fun entry => freshen entry path).cache, (∃ q ∈ c.cache, ids p = ids q) ∨ ids p = ids path := by
    intro p member
    obtain ⟨entry, inside, equal⟩ := List.mem_map.mp member
    have ids_eq : ids p = ids entry := by rw [← equal, ids_freshen]
    rw [ids_eq]
    rcases List.mem_or_eq_of_mem_set inside with old | new
    · exact Or.inl ⟨entry, same ▸ old, rfl⟩
    · exact new ▸ origin
  unfold addRoute
  cases found : c.cache.findIdx? fun entry => decide (agreeing entry path = entry.length ∨ agreeing entry path = path.length) with
  | none =>
    refine ⟨_, 0, rfl, placed _ _ path ?_ (Or.inr rfl)⟩
    unfold pickVictim
    split <;> rfl
  | some index =>
    obtain ⟨inside, _⟩ := List.findIdx?_eq_some_iff_getElem.mp found
    have member : c.cache.getD index [] ∈ c.cache := by
      rw [List.getD_eq_getElem?_getD, List.getElem?_eq_getElem inside, Option.getD_some]
      exact List.getElem_mem inside
    dsimp only [Option.bind_eq_bind]
    generalize c.cache.getD index [] = entry at member ⊢
    have together := agreeing_take entry path
    split_ifs with all
    · rw [all, List.take_length] at together
      have length := congrArg List.length together
      rw [length_ids, length_ids, List.length_take] at length
      have fits : entry.length + (path.drop (agreeing entry path)).length ≤ maxSrLen := by
        rw [all, List.length_drop]
        omega
      rw [appendAll_eq entry _ fits]
      refine ⟨_, _, rfl, placed c index _ rfl (Or.inr ?_)⟩
      rw [ids_append, all, together, ← ids_append, List.take_append_drop]
    · exact ⟨_, _, rfl, placed c index entry rfl (Or.inl ⟨entry, member, rfl⟩)⟩

end Cache

section Routes

/-- A route from the node, without a repeated id, that is not too long. -/
structure RouteOk (rc : RouteCache) (route : List DsrId) : Prop where
  own : ∀ id ∈ route.head?, rc.isOwn id
  distinct : route.Nodup
  short : route.length ≤ maxSrLen

theorem RouteOk.nil (rc : RouteCache) : RouteOk rc [] := ⟨by simp, List.nodup_nil, by simp⟩

theorem RouteOk.front {rc : RouteCache} {route shorter : List DsrId} (ok : RouteOk rc route) (front : shorter <+: route) :
    RouteOk rc shorter where
  own id first := by
    obtain ⟨rest, same⟩ := front
    refine ok.own id ?_
    cases shorter with
    | nil => cases first
    | cons head tail => rwa [← same, List.cons_append, List.head?_cons]
  distinct := ok.distinct.sublist front.sublist
  short := front.length_le.trans ok.short

namespace RouteCache

variable {rc : RouteCache} {t : ℚ} {whoFrom : DsrId} {index : ℕ}

theorem preAddRoute_ok (distinct : (ids p).Nodup) (short : p.length ≤ maxSrLen) :
    ∀ route, rc.preAddRoute p t whoFrom = some route → RouteOk rc (ids route) := by
  intro route offered
  unfold preAddRoute at offered
  split at offered
  · rename_i hop next rest
    split_ifs at offered with own
    cases Option.some.inj offered
    rw [ids_stamp]
    refine ⟨fun id first => ?_, distinct, by rwa [length_ids]⟩
    cases Option.some.inj first
    exact own
  · cases offered

theorem preNoticeRouteUsed_ok (distinct : (ids p).Nodup) (short : p.length ≤ maxSrLen) :
    ∀ route, rc.preNoticeRouteUsed p index t whoFrom = some route → RouteOk rc (ids route) := by
  intro route offered
  unfold preNoticeRouteUsed at offered
  cases found : p.findIdx? fun hop => decide (rc.isOwn hop.id) with
  | some c =>
    rw [found] at offered
    dsimp only at offered
    split_ifs at offered
    cases Option.some.inj offered
    obtain ⟨inside, own, _⟩ := List.findIdx?_eq_some_iff_getElem.mp found
    rw [ids_stamp]
    refine ⟨fun id first => ?_, ?_, ?_⟩
    · rw [ids_drop, List.head?_drop, ids, List.getElem?_map, List.getElem?_eq_getElem inside] at first
      cases Option.some.inj first
      exact of_decide_eq_true own
    · rw [ids_drop]
      exact distinct.sublist (List.drop_sublist _ _)
    · rw [length_ids, List.length_drop]
      omega
  | none =>
    rw [found] at offered
    dsimp only at offered
    split_ifs at offered
    cases Option.some.inj offered
    rw [ids_modify (f := fun hop => { hop with linkType := .untested }) (fun _ => rfl), ids_stamp]
    have away : rc.netId ∉ ids p := by
      intro member
      obtain ⟨hop, inside, same⟩ := List.mem_map.mp member
      have none := List.findIdx?_eq_none_iff.mp found hop inside
      exact of_decide_eq_false none (Or.inl same)
    have part : (ids ((p.drop (index - 1)).take (maxSrLen - 1))).Sublist (ids p) := by
      rw [ids_take, ids_drop]
      exact (List.take_sublist _ _).trans (List.drop_sublist _ _)
    refine ⟨fun id first => ?_, List.nodup_cons.mpr ⟨fun member => away (part.subset member), distinct.sublist part⟩, ?_⟩
    · cases Option.some.inj first
      exact Or.inl rfl
    · rw [length_ids, List.length_cons, List.length_take]
      unfold maxSrLen
      omega

end RouteCache

end Routes

section Search

/-- What the loops have found in the paths that they have seen. -/
structure Best (dest : DsrId) (seen : List DsrPath) (s : Search) : Prop where
  found : s.minCache ≠ 0 → s.route ∈ seen ∧ s.route.findIdx? (fun hop => hop.id = dest) = some s.minLength
  least : ∀ p ∈ seen, ∀ n, p.findIdx? (fun hop => hop.id = dest) = some n → s.minCache ≠ 0 ∧ s.minLength ≤ n
  unset : s.minCache = 0 → s.minLength = maxSrLen + 1

variable {seen rest : List DsrPath} {s : Search} {index n : ℕ}

theorem best_start (dest : DsrId) : Best dest [] .start := ⟨fun hit => absurd rfl hit, by simp, fun _ => rfl⟩

/-- A path without the destination. -/
theorem Best.skip (best : Best dest seen s) (absent : path.findIdx? (fun hop => hop.id = dest) = none) : Best dest (seen ++ [path]) s where
  found hit := ⟨List.mem_append_left _ (best.found hit).1, (best.found hit).2⟩
  least p member n found := by
    rcases List.mem_append.mp member with old | new
    · exact best.least p old n found
    · cases List.mem_singleton.mp new
      rw [absent] at found
      cases found
  unset := best.unset

/-- A hit that is not shorter leaves the route, and a shorter one replaces it. -/
theorem Best.hit {s' : Search} (best : Best dest seen s) (short : path.length ≤ maxSrLen)
    (here : path.findIdx? (fun hop => hop.id = dest) = some n)
    (keeps : ¬n < s.minLength → s'.minCache ≠ 0 ∧ s'.minLength = s.minLength ∧ s'.route = s.route)
    (takes : n < s.minLength → s'.minCache ≠ 0 ∧ s'.minLength = n ∧ s'.route = path) : Best dest (seen ++ [path]) s' := by
  have inside : n < path.length := by
    obtain ⟨inside, _⟩ := List.findIdx?_eq_some_iff_getElem.mp here
    exact inside
  by_cases less : n < s.minLength
  · obtain ⟨hit, length, route⟩ := takes less
    refine ⟨fun _ => ?_, fun p member n' found => ?_, fun unset => absurd unset hit⟩
    · rw [route, length]
      exact ⟨List.mem_append_right _ List.mem_cons_self, here⟩
    · refine ⟨hit, ?_⟩
      rcases List.mem_append.mp member with old | new
      · have bound := (best.least p old n' found).2
        omega
      · cases List.mem_singleton.mp new
        rw [here] at found
        cases Option.some.inj found
        exact Nat.le_of_eq length
  · obtain ⟨hit, length, route⟩ := keeps less
    have before : s.minCache ≠ 0 := by
      intro unset
      have fresh := best.unset unset
      omega
    obtain ⟨member, first⟩ := best.found before
    refine ⟨fun _ => ?_, fun p member' n' found => ?_, fun unset => absurd unset hit⟩
    · rw [route, length]
      exact ⟨List.mem_append_left _ member, first⟩
    · refine ⟨hit, ?_⟩
      rcases List.mem_append.mp member' with old | new
      · exact length.trans_le (best.least p old n' found).2
      · cases List.mem_singleton.mp new
        rw [here] at found
        cases Option.some.inj found
        omega

theorem Best.searchAll {hit : Search → ℕ → ℕ → DsrPath → Search} (best : Best dest seen s) (short : ∀ p ∈ rest, p.length ≤ maxSrLen)
    (hits : ∀ s seen index len path, Best dest seen s → path.length ≤ maxSrLen →
      path.findIdx? (fun hop => hop.id = dest) = some len → Best dest (seen ++ [path]) (hit s index len path)) :
    Best dest (seen ++ rest) (Search.searchAll hit dest s index rest) := by
  induction rest generalizing seen s index with
  | nil => rwa [List.append_nil]
  | cons path rest ih =>
    obtain ⟨first, others⟩ := List.forall_mem_cons.mp short
    rw [← List.singleton_append, ← List.append_assoc, Search.searchAll.eq_def]
    dsimp only [List.singleton_append]
    cases here : path.findIdx? fun hop => decide (hop.id = dest) with
    | none => exact ih (best.skip here) others
    | some len => exact ih (hits s seen index len path best first here) others

theorem best_primaryHit : ∀ s seen index len path, Best dest seen s → path.length ≤ maxSrLen →
    path.findIdx? (fun hop => hop.id = dest) = some len → Best dest (seen ++ [path]) (s.primaryHit index len path) := by
  intro s seen index len path best short here
  refine best.hit short here (fun less => ?_) fun less => ?_
  · rw [Search.primaryHit, if_neg less]
    exact ⟨(by decide : 2 ≠ 0), rfl, rfl⟩
  · rw [Search.primaryHit, if_pos less]
    exact ⟨(by decide : 2 ≠ 0), rfl, rfl⟩

theorem best_secondaryHit : ∀ s seen index len path, Best dest seen s → path.length ≤ maxSrLen →
    path.findIdx? (fun hop => hop.id = dest) = some len → Best dest (seen ++ [path]) (s.secondaryHit index len path) := by
  intro s seen index len path best short here
  refine best.hit short here (fun less => ?_) fun less => ?_
  · rw [Search.secondaryHit, if_neg less]
    refine ⟨fun unset => less ?_, rfl, rfl⟩
    obtain ⟨inside, _⟩ := List.findIdx?_eq_some_iff_getElem.mp here
    have fresh := best.unset unset
    omega
  · rw [Search.secondaryHit, if_pos less]
    exact ⟨(by decide : 1 ≠ 0), rfl, rfl⟩

end Search

namespace MobiCache

variable {m next : MobiCache} {rc : RouteCache} {offer : Option DsrPath}

/-- The answer to `findRoute`. -/
structure Answers (m : MobiCache) (dest : DsrId) (result : Option DsrPath) : Prop where
  isSome_iff : result.isSome = true ↔ ∃ p ∈ m.paths, dest ∈ ids p
  cached : ∀ route ∈ result, ∃ p ∈ m.paths, ∃ n, (ids p)[n]? = some dest ∧ route = p.take (n + 1)
  shortest : ∀ route ∈ result, ∀ p ∈ m.paths, ∀ n, (ids p)[n]? = some dest → route.length ≤ n + 1

/-- The paths are parts of paths from before, or the route that has been added. -/
def Inherits (m next : MobiCache) (added : Option DsrPath) : Prop :=
  ∀ p ∈ next.paths, ids p = [] ∨ (∃ q ∈ m.paths, ids p <+: ids q) ∨ ∃ route, added = some route ∧ ids p = ids route

theorem search_best (short : ∀ p ∈ m.paths, p.length ≤ maxSrLen) : Best dest m.paths (m.search dest) := by
  obtain ⟨first, second⟩ := List.forall_mem_append.mp short
  have primary : Best dest m.primaryCache.cache (Search.searchAll .primaryHit dest .start 0 m.primaryCache.cache) :=
    (best_start dest).searchAll first best_primaryHit
  exact primary.searchAll second best_secondaryHit

theorem answers_of_best {s : Search} (best : Best dest m.paths s) :
    Answers m dest (if s.minCache ≠ 0 then some (s.route.take (s.minLength + 1)) else none) := by
  have position (p : DsrPath) (n : ℕ) (here : (ids p)[n]? = some dest) : ∃ first ≤ n, p.findIdx? (fun hop => hop.id = dest) = some first := by
    obtain ⟨hop, found, same⟩ := Option.map_eq_some_iff.mp ((List.getElem?_map ..).symm.trans here)
    obtain ⟨inside, value⟩ := List.getElem?_eq_some_iff.mp found
    cases first : p.findIdx? fun hop => decide (hop.id = dest) with
    | none =>
      have all := List.findIdx?_eq_none_iff.mp first hop (value ▸ List.getElem_mem inside)
      exact absurd same (of_decide_eq_false all)
    | some first' =>
      obtain ⟨inside', _, least⟩ := List.findIdx?_eq_some_iff_getElem.mp first
      refine ⟨first', Nat.le_of_not_lt fun less => ?_, rfl⟩
      exact least n less (decide_eq_true (value ▸ same))
  refine ⟨⟨fun hit => ?_, fun occurs => ?_⟩, fun route hit => ?_, fun route hit p member n here => ?_⟩
  · split_ifs at hit with set
    · obtain ⟨member, first⟩ := best.found set
      obtain ⟨inside, same, _⟩ := List.findIdx?_eq_some_iff_getElem.mp first
      exact ⟨s.route, member, List.mem_map.mpr ⟨_, List.getElem_mem inside, of_decide_eq_true same⟩⟩
    · cases hit
  · obtain ⟨p, member, inside⟩ := occurs
    obtain ⟨n, here⟩ := List.getElem?_of_mem inside
    obtain ⟨first, _, found⟩ := position p n here
    rw [if_pos (best.least p member first found).1]
    rfl
  · rw [Option.mem_def] at hit
    split_ifs at hit with set
    cases Option.some.inj hit
    obtain ⟨member, first⟩ := best.found set
    obtain ⟨inside, same, _⟩ := List.findIdx?_eq_some_iff_getElem.mp first
    refine ⟨s.route, member, s.minLength, ?_, rfl⟩
    rw [ids, List.getElem?_map, List.getElem?_eq_getElem inside]
    exact congrArg some (of_decide_eq_true same)
  · rw [Option.mem_def] at hit
    split_ifs at hit with set
    cases Option.some.inj hit
    obtain ⟨first, le, found⟩ := position p n here
    have bound := (best.least p member first found).2
    rw [List.length_take]
    omega

theorem promote_spec {index : ℕ} (short : ∀ p ∈ m.paths, p.length ≤ maxSrLen) : ∃ next, m.promote index = some next ∧
    next.toRouteCache = m.toRouteCache ∧ Inherits m next none := by
  have moved : m.secondaryCache.cache.getD index [] = [] ∨ m.secondaryCache.cache.getD index [] ∈ m.secondaryCache.cache := by
    rw [List.getD_eq_getElem?_getD]
    cases found : m.secondaryCache.cache[index]? with
    | none => exact Or.inl rfl
    | some path => exact Or.inr (List.mem_of_getElem? found)
  have fits : (m.secondaryCache.cache.getD index []).length ≤ maxSrLen := by
    rcases moved with empty | member
    · rw [empty]
      exact Nat.zero_le _
    · exact short _ (List.mem_append_right _ member)
  obtain ⟨primary, n, added, origin⟩ := m.primaryCache.addRoute_spec fits
  refine ⟨{ m with primaryCache := primary, secondaryCache := m.secondaryCache.set index [] }, by rw [promote, added, Option.map_some],
    rfl, fun p member => ?_⟩
  rcases List.mem_append.mp member with first | second
  · rcases origin p first with ⟨q, old, same⟩ | same
    · exact Or.inr (Or.inl ⟨q, List.mem_append_left _ old, same ▸ List.prefix_rfl⟩)
    · rcases moved with empty | old
      · rw [empty] at same
        exact Or.inl same
      · exact Or.inr (Or.inl ⟨_, List.mem_append_right _ old, same ▸ List.prefix_rfl⟩)
  · rcases List.mem_or_eq_of_mem_set second with old | new
    · exact Or.inr (Or.inl ⟨p, List.mem_append_right _ old, List.prefix_rfl⟩)
    · subst new
      exact Or.inl rfl

theorem Inherits.refl (m : MobiCache) (added : Option DsrPath) : Inherits m m added := fun p member =>
  Or.inr (Or.inl ⟨p, member, List.prefix_rfl⟩)

theorem findRoute_spec (dest : DsrId) (forMe : Bool) (valid : m.netId ≠ invalidAddr) (short : ∀ p ∈ m.paths, p.length ≤ maxSrLen) :
    ∃ next result, m.findRoute dest forMe = some (next, result) ∧ next.toRouteCache = m.toRouteCache ∧ Inherits m next none ∧
      Answers m dest result := by
  have best : Best dest m.paths (m.search dest) := search_best short
  have answers := answers_of_best best
  obtain ⟨next, moved, config, inherits⟩ : ∃ next,
      (if (m.search dest).minCache = 1 ∧ forMe = true then m.promote (m.search dest).minIndex else some m) = some next ∧
      next.toRouteCache = m.toRouteCache ∧ Inherits m next none := by
    split_ifs
    · exact promote_spec short
    · exact ⟨m, rfl, rfl, .refl m none⟩
  refine ⟨next, _, ?_, config, inherits, answers⟩
  rw [findRoute, asserting, if_pos valid, moved, Option.bind_some]
  split_ifs with set
  · obtain ⟨member, first⟩ := best.found set
    obtain ⟨inside, _⟩ := List.findIdx?_eq_some_iff_getElem.mp first
    rw [asserting, if_pos (Nat.succ_le_of_lt (inside.trans_le (short _ member)))]
  · rfl

/-- The route that a call adds. -/
def added (rc : RouteCache) : Event → Option DsrPath
  | .addRoute route t whoFrom => rc.preAddRoute route t whoFrom
  | .noticeRouteUsed p index t whoFrom => rc.preNoticeRouteUsed p index t whoFrom
  | .noticeDeadLink _ _ | .findRoute _ _ => none

/-- A route that is given to the cache has at most `MAX_SR_LEN` ids and repeats none. -/
def Admitted : Event → Prop
  | .addRoute p _ _ | .noticeRouteUsed p _ _ _ => (ids p).Nodup ∧ p.length ≤ maxSrLen
  | .noticeDeadLink _ _ | .findRoute _ _ => True

instance : ∀ event, Decidable (Admitted event)
  | .addRoute p _ _ | .noticeRouteUsed p _ _ _ => inferInstanceAs (Decidable ((ids p).Nodup ∧ p.length ≤ maxSrLen))
  | .noticeDeadLink _ _ | .findRoute _ _ => isTrue trivial

/-- The call adds a route that goes over the link. -/
def Adds (rc : RouteCache) (src dst : DsrId) (event : Event) : Prop := ∃ route, added rc event = some route ∧ UsesLink src dst route

/-- The caches of the node with these ids. -/
structure Sound (rc : RouteCache) (m : MobiCache) : Prop where
  config : m.toRouteCache = rc
  routes : ∀ p ∈ m.paths, RouteOk rc (ids p)

theorem added_ok {event : Event} (admitted : Admitted event) : ∀ route, added rc event = some route → RouteOk rc (ids route) := by
  cases event with
  | addRoute p t whoFrom => exact rc.preAddRoute_ok admitted.1 admitted.2
  | noticeRouteUsed p index t whoFrom => exact rc.preNoticeRouteUsed_ok admitted.1 admitted.2
  | noticeDeadLink src dst => exact nofun
  | findRoute dest forMe => exact nofun

theorem Sound.inherits (sound : Sound rc m) (config : next.toRouteCache = m.toRouteCache) (inherits : Inherits m next offer)
    (ok : ∀ route, offer = some route → RouteOk rc (ids route)) : Sound rc next where
  config := config.trans sound.config
  routes p member := by
    rcases inherits p member with empty | ⟨q, old, front⟩ | ⟨route, new, same⟩
    · rw [empty]
      exact .nil rc
    · exact (sound.routes q old).front front
    · rw [same]
      exact ok route new

theorem Sound.short (sound : Sound rc m) : ∀ p ∈ m.paths, p.length ≤ maxSrLen := fun p member =>
  (length_ids p).symm.trans_le (sound.routes p member).short

/-- A link that no path uses stays unused unless a route with it is added. -/
theorem Inherits.unused (inherits : Inherits m next offer) (unused : ∀ p ∈ m.paths, ¬UsesLink src dst p)
    (other : ∀ route, offer = some route → ¬UsesLink src dst route) : ∀ p ∈ next.paths, ¬UsesLink src dst p := by
  intro p member uses
  rcases inherits p member with empty | ⟨q, old, front⟩ | ⟨route, new, same⟩
  · unfold UsesLink at uses
    rw [empty] at uses
    exact absurd (List.infix_nil.mp uses) (by simp)
  · exact unused q old (uses.trans front.isInfix)
  · refine other route new ?_
    unfold UsesLink at uses ⊢
    rwa [← same]

theorem addRoute_inherits (cache : Cache) (others : List DsrPath) (short : path.length ≤ maxSrLen)
    (cached : ∀ p, p ∈ m.paths ↔ p ∈ cache.cache ∨ p ∈ others) : ∃ c n, cache.addRoute path = some (c, n) ∧
    ∀ next : MobiCache, (∀ p ∈ next.paths, p ∈ c.cache ∨ p ∈ others) → Inherits m next (some path) := by
  obtain ⟨c, n, placed, origin⟩ := cache.addRoute_spec short
  refine ⟨c, n, placed, fun next members p member => ?_⟩
  rcases members p member with new | other
  · rcases origin p new with ⟨q, old, same⟩ | same
    · exact Or.inr (Or.inl ⟨q, (cached q).mpr (Or.inl old), same ▸ List.prefix_rfl⟩)
    · exact Or.inr (Or.inr ⟨path, rfl, same⟩)
  · exact Or.inr (Or.inl ⟨p, (cached p).mpr (Or.inr other), List.prefix_rfl⟩)

theorem noticeDeadLink_inherits (m : MobiCache) (src dst : DsrId) : Inherits m (m.noticeDeadLink src dst) none ∧
    ∀ p ∈ (m.noticeDeadLink src dst).paths, ¬UsesLink src dst p := by
  have origin : ∀ p ∈ (m.noticeDeadLink src dst).paths, ∃ q ∈ m.paths, p = truncate src dst q := by
    intro p member
    rcases List.mem_append.mp member with first | second
    · obtain ⟨q, old, same⟩ := List.mem_map.mp first
      exact ⟨q, List.mem_append_left _ old, same.symm⟩
    · obtain ⟨q, old, same⟩ := List.mem_map.mp second
      exact ⟨q, List.mem_append_right _ old, same.symm⟩
  constructor
  · intro p member
    obtain ⟨q, old, same⟩ := origin p member
    exact Or.inr (Or.inl ⟨q, old, same ▸ (truncate_spec src dst q).1⟩)
  · intro p member
    obtain ⟨q, old, same⟩ := origin p member
    exact same ▸ (truncate_spec src dst q).2

/-- What one call does. -/
theorem step_spec {event : Event} (valid : rc.netId ≠ invalidAddr) (sound : Sound rc m) (admitted : Admitted event) :
    ∃ next out, machine.step m event = some (next, out) ∧ Sound rc next ∧ Inherits m next (added rc event) ∧
      ∀ src dst, event = .noticeDeadLink src dst → ∀ p ∈ next.paths, ¬UsesLink src dst p := by
  have ok : ∀ route, added rc event = some route → RouteOk rc (ids route) := added_ok admitted
  have own : m.netId ≠ invalidAddr := by rwa [← sound.config] at valid
  cases event with
  | addRoute p t whoFrom =>
    have offer : m.preAddRoute p t whoFrom = added rc (.addRoute p t whoFrom) := by rw [added, sound.config]
    unfold machine
    dsimp only
    rw [addRoute, asserting, if_pos own, offer]
    cases new : added rc (.addRoute p t whoFrom) with
    | none => exact ⟨m, none, rfl, sound, .refl m none, nofun⟩
    | some route =>
      have short := (length_ids route).symm.trans_le (ok route new).short
      obtain ⟨c, n, placed, inherits⟩ := addRoute_inherits (m := m) m.primaryCache m.secondaryCache.cache short fun p => List.mem_append
      dsimp only
      rw [placed]
      have from_old : Inherits m { m with primaryCache := c } (some route) := inherits _ fun p member => List.mem_append.mp member
      exact ⟨_, none, rfl, sound.inherits rfl (new ▸ from_old) ok, from_old, nofun⟩
  | noticeRouteUsed p index t whoFrom =>
    have offer : m.preNoticeRouteUsed p index t whoFrom = added rc (.noticeRouteUsed p index t whoFrom) := by rw [added, sound.config]
    unfold machine
    dsimp only
    rw [noticeRouteUsed, offer]
    cases new : added rc (.noticeRouteUsed p index t whoFrom) with
    | none => exact ⟨m, none, rfl, sound, .refl m none, nofun⟩
    | some route =>
      have short := (length_ids route).symm.trans_le (ok route new).short
      obtain ⟨c, n, placed, inherits⟩ := addRoute_inherits (m := m) m.secondaryCache m.primaryCache.cache short fun p =>
        List.mem_append.trans Or.comm
      dsimp only
      rw [placed]
      have from_old : Inherits m { m with secondaryCache := c } (some route) := inherits _ fun p member =>
        (List.mem_append.mp member).symm
      exact ⟨_, none, rfl, sound.inherits rfl (new ▸ from_old) ok, from_old, nofun⟩
  | noticeDeadLink src dst =>
    obtain ⟨inherits, unused⟩ := noticeDeadLink_inherits m src dst
    refine ⟨_, none, rfl, sound.inherits rfl inherits nofun, inherits, fun src' dst' same => ?_⟩
    cases same
    exact unused
  | findRoute dest forMe =>
    obtain ⟨next, result, found, config, inherits, _⟩ := findRoute_spec dest forMe own sound.short
    exact ⟨next, result, found, sound.inherits config inherits nofun, inherits, nofun⟩

/-- The link has been noticed as dead, and no route over it has been added since. -/
def Dead (rc : RouteCache) (events : List Event) (src dst : DsrId) : Prop :=
  ∃ before after, events = before ++ .noticeDeadLink src dst :: after ∧ ∀ event ∈ after, ¬Adds rc src dst event

theorem Dead.last {events : List Event} {event : Event} (dead : Dead rc (events ++ [event]) src dst) :
    event = .noticeDeadLink src dst ∨ Dead rc events src dst ∧ ¬Adds rc src dst event := by
  obtain ⟨before, after, same, unadded⟩ := dead
  rcases List.eq_nil_or_concat after with empty | ⟨early, final, parts⟩
  · subst empty
    exact Or.inl (List.append_inj_right' same rfl |> List.singleton_inj.mp)
  · rw [List.concat_eq_append] at parts
    subst parts
    rw [← List.cons_append, ← List.append_assoc] at same
    obtain ⟨first, second⟩ := List.append_inj' same rfl
    cases List.singleton_inj.mp second
    exact Or.inr ⟨⟨before, early, first, fun e member => unadded e (List.mem_append_left _ member)⟩,
      unadded event (List.mem_append_right _ List.mem_cons_self)⟩

/-- A route that `findRoute` gives can only use links of cached paths. -/
theorem Answers.unused {result : Option DsrPath} (answers : Answers m dest result) (unused : ∀ p ∈ m.paths, ¬UsesLink src dst p) :
    ∀ route ∈ result, ¬UsesLink src dst route := by
  intro route given uses
  obtain ⟨p, member, n, _, same⟩ := answers.cached route given
  refine unused p member (uses.trans ?_)
  rw [same, ids_take]
  exact (List.take_prefix _ _).isInfix

/-- The cache after a run. -/
structure Settled (rc : RouteCache) (events : List Event) (m : MobiCache) : Prop where
  starts : ∀ p ∈ m.paths, ∀ hop ∈ p.head?, rc.isOwn hop.id
  distinct : ∀ p ∈ m.paths, (ids p).Nodup
  finds : ∀ dest forMe, ∃ next result, m.findRoute dest forMe = some (next, result) ∧ Answers m dest result ∧
    ∀ src dst, Dead rc events src dst → ∀ route ∈ result, ¬UsesLink src dst route

/-- After any calls the cached paths start at the node and repeat no id, and `findRoute` gives a shortest cached route, over no link
that is noticed as dead. -/
theorem run_settled (rc : RouteCache) (valid : rc.netId ≠ invalidAddr) (events : List Event) (admitted : ∀ event ∈ events, Admitted event) :
    ∃ last outs, machine.run (.make rc) events = some (last, outs) ∧ Settled rc events last := by
  let Holds (m : MobiCache) (seen : List Event) : Prop :=
    Sound rc m ∧ ∀ src dst, Dead rc seen src dst → ∀ p ∈ m.paths, ¬UsesLink src dst p
  have kept (m : MobiCache) (seen : List Event) (event : Event) (holds : Holds m seen) (fits : Admitted event) :
      ∃ next out, machine.step m event = some (next, out) ∧ Holds next (seen ++ [event]) := by
    obtain ⟨sound, unused⟩ := holds
    obtain ⟨next, out, step, after, inherits, cut⟩ := step_spec valid sound fits
    refine ⟨next, out, step, after, fun src dst dead => ?_⟩
    rcases dead.last with now | ⟨before, unadded⟩
    · exact cut src dst now
    · exact inherits.unused (unused src dst before) fun route new uses => unadded ⟨route, new, uses⟩
  have empty : ∀ p ∈ (MobiCache.make rc).paths, p = [] := by
    intro p member
    rcases List.mem_append.mp member with first | second
    · exact List.eq_of_mem_replicate first
    · exact List.eq_of_mem_replicate second
  have initially : Holds (.make rc) [] := by
    refine ⟨⟨rfl, fun p member => ?_⟩, fun src dst dead => ?_⟩
    · rw [empty p member]
      exact .nil rc
    · obtain ⟨before, after, same, _⟩ := dead
      simp at same
  obtain ⟨last, outs, run, sound, unused⟩ := Machine.run_inputs kept initially (Machine.along_of_forall admitted)
  rw [List.nil_append] at unused
  have own : last.netId ≠ invalidAddr := by rwa [← sound.config] at valid
  refine ⟨last, outs, run, fun p member hop first => ?_, fun p member => (sound.routes p member).distinct, fun dest forMe => ?_⟩
  · refine (sound.routes p member).own hop.id ?_
    rw [ids, List.head?_map]
    exact congrArg (Option.map Hop.id) first
  · obtain ⟨next, result, found, _, _, answers⟩ := findRoute_spec dest forMe own sound.short
    exact ⟨next, result, found, answers, fun src dst dead => answers.unused (unused src dst dead)⟩

/-- A path of IP addresses. -/
def ipPath (addrs : List ℕ) : DsrPath := addrs.map fun addr => ⟨⟨addr, .ip⟩, 0, .none, .none⟩

/-- A route that is used, another that is overheard from 4, a dead link on the first, and a search that promotes the second. -/
def sampleCalls : List Event :=
  [.addRoute (ipPath [1, 2, 3]) 1 ⟨3, .ip⟩, .noticeRouteUsed (ipPath [4, 5, 6]) 1 2 ⟨4, .ip⟩,
    .noticeDeadLink ⟨2, .ip⟩ ⟨3, .ip⟩, .findRoute ⟨5, .ip⟩ true]

theorem run_settled_sample : ∃ last outs, machine.run (.make ⟨⟨1, .mac⟩, ⟨1, .ip⟩, false, true⟩) sampleCalls = some (last, outs) ∧
    Settled ⟨⟨1, .mac⟩, ⟨1, .ip⟩, false, true⟩ sampleCalls last :=
  run_settled ⟨⟨1, .mac⟩, ⟨1, .ip⟩, false, true⟩ (by decide) sampleCalls (by decide)

example : ((machine.run (.make ⟨⟨1, .mac⟩, ⟨1, .ip⟩, false, true⟩) sampleCalls).map fun result => result.2.map (Option.map ids)) =
    some [none, none, none, some [⟨1, .ip⟩, ⟨4, .ip⟩, ⟨5, .ip⟩]] := by decide +kernel

end MobiCache

end Ns2
