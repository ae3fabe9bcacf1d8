import Ns2.Aodv.RingSearch

namespace Ns2

open AODV AodvDiscipline

variable {a b m : AODV} {rt old : AodvRtEntry} {p : AodvPacket} {ps out out' : List AodvPacket} {now : ℚ} {d dst saddr : ℕ} {rq : AodvRequest}
  {rp : AodvReply} {result : AODV × List AodvPacket}

theorem SameSearch.requested {rt' : AodvRtEntry} (same : SameSearch rt rt') : SameSearch (rt.requested now) (rt'.requested now) := by
  have perHop := same.perHopTime
  unfold AodvRtEntry.requested
  constructor <;> dsimp only
  · rw [same.reqLastTtl, same.lastHopCount, same.reqCnt, perHop]
  · rw [same.reqLastTtl, same.lastHopCount, same.reqCnt]
  · rw [same.reqLastTtl, same.lastHopCount]
  · exact same.lastHopCount
  · exact same.discLatency

namespace AODV

/-- A route to the destination is there afterwards, and the search is as before. -/
structure Kept (d : ℕ) (a : AODV) (result : AODV × List AodvPacket) : Prop where
  index : result.1.index = a.index
  alive : (result.1.entry d).flags ≠ .down
  same : SameSearch (a.entry d) (result.1.entry d)
  silent : result.2.filterMap (ownTtl a.index d) = []

/-- A route to the destination is there afterwards, and the search is renewed with this hop count. -/
structure Renewed (d hopCount : ℕ) (a : AODV) (result : AODV × List AodvPacket) : Prop where
  index : result.1.index = a.index
  alive : (result.1.entry d).flags ≠ .down
  reqTimeout : (result.1.entry d).reqTimeout = 0
  reqCnt : (result.1.entry d).reqCnt = 0
  reqLastTtl : (result.1.entry d).reqLastTtl = hopCount
  lastHopCount : (result.1.entry d).lastHopCount = (a.entry d).lastHopCount
  silent : result.2.filterMap (ownTtl a.index d) = []

/-- What a routine may do about a destination that no route to has come in for. -/
inductive Outcome (now : ℚ) (d : ℕ) (a : AODV) (result : AODV × List AodvPacket) : Prop
  | quiet (quiet : Quiet d a result)
  | kept (kept : Kept d a result)
  | requested (index : result.1.index = a.index) (due : (a.entry d).reqTimeout ≤ now) (few : (a.entry d).reqCnt ≤ 3)
      (same : SameSearch ((a.entry d).requested now) (result.1.entry d))
      (down : (result.1.entry d).flags = .down → (a.entry d).flags = .down)
      (sent : result.2.filterMap (ownTtl a.index d) = [(((a.entry d).requested now).reqLastTtl : ℤ)])
  | dropped (index : result.1.index = a.index) (due : (a.entry d).reqTimeout ≤ now) (many : 3 < (a.entry d).reqCnt)
      (same : SameSearch { a.entry d with reqTimeout := now + 10, reqCnt := 0 } (result.1.entry d))
      (down : (result.1.entry d).flags = .down → (a.entry d).flags = .down)
      (silent : result.2.filterMap (ownTtl a.index d) = []) (left : result.1.waiting d = 0)
  | fell (index : result.1.index = a.index) (before : (a.entry d).flags ≠ .down) (down : (result.1.entry d).flags = .down)
      (hops : (result.1.entry d).hops = aodvInfinity)
      (same : SameSearch { a.entry d with lastHopCount := (a.entry d).hops } (result.1.entry d))
      (silent : result.2.filterMap (ownTtl a.index d) = [])

theorem Outcome.index (outcome : Outcome now d a result) : result.1.index = a.index := by
  cases outcome with
  | quiet quiet => exact quiet.index
  | kept kept => exact kept.index
  | requested index _ _ _ _ _ => exact index
  | dropped index _ _ _ _ _ _ => exact index
  | fell index _ _ _ _ _ => exact index

/-- Something happens after nothing has happened. -/
theorem Quiet.followed (quiet : Quiet d a (m, out)) (outcome : Outcome now d m (b, out')) : Outcome now d a (b, out ++ out') := by
  have index : m.index = a.index := quiet.index
  have early : out.filterMap (ownTtl a.index d) = [] := quiet.silent
  have search : SameSearch (a.entry d) (m.entry d) := quiet.alike.search
  have hops : (m.entry d).hops = (a.entry d).hops := quiet.alike.hops
  have flags : (m.entry d).flags = .down ↔ (a.entry d).flags = .down := quiet.alike.down
  have all : (out ++ out').filterMap (ownTtl a.index d) = out'.filterMap (ownTtl m.index d) := by
    rw [List.filterMap_append, early, List.nil_append, index]
  cases outcome with
  | quiet later => exact .quiet (quiet.trans later)
  | kept kept => exact .kept ⟨kept.index.trans index, kept.alive, search.trans kept.same, all.trans kept.silent⟩
  | requested index' due few same down sent =>
    refine .requested (index'.trans index) (search.reqTimeout ▸ due) (search.reqCnt ▸ few) (search.requested.trans same)
      (fun fell => flags.mp (down fell)) ?_
    have next : ((m.entry d).requested now).reqLastTtl = ((a.entry d).requested now).reqLastTtl := search.requested.reqLastTtl
    rw [show (b, out ++ out').2 = out ++ out' from rfl, all, ← next]
    exact sent
  | dropped index' due many same down silent left =>
    refine .dropped (index'.trans index) (search.reqTimeout ▸ due) (search.reqCnt ▸ many) ?_ (fun fell => flags.mp (down fell)) (all.trans silent) left
    exact ⟨same.reqTimeout, same.reqCnt, same.reqLastTtl.trans search.reqLastTtl, same.lastHopCount.trans search.lastHopCount,
      same.discLatency.trans search.discLatency⟩
  | fell index' before down lost same silent =>
    refine .fell (index'.trans index) (fun was => before (flags.mpr was)) down lost ?_ (all.trans silent)
    exact ⟨same.reqTimeout.trans search.reqTimeout, same.reqCnt.trans search.reqCnt, same.reqLastTtl.trans search.reqLastTtl,
      same.lastHopCount.trans hops, same.discLatency.trans search.discLatency⟩

theorem Kept.settled (kept : Kept d a (m, out)) (quiet : Quiet d m (b, out')) : Kept d a (b, out ++ out') where
  index := quiet.index.trans kept.index
  alive fell := kept.alive (quiet.alike.down.mp fell)
  same := kept.same.trans quiet.alike.search
  silent := by
    have late : out'.filterMap (ownTtl m.index d) = [] := quiet.silent
    rw [show m.index = a.index from kept.index] at late
    rw [List.filterMap_append, kept.silent, late, List.append_nil]

theorem Renewed.settled {h : ℕ} (renewed : Renewed d h a (m, out)) (quiet : Quiet d m (b, out')) : Renewed d h a (b, out ++ out') where
  index := quiet.index.trans renewed.index
  alive fell := renewed.alive (quiet.alike.down.mp fell)
  reqTimeout := quiet.alike.search.reqTimeout.trans renewed.reqTimeout
  reqCnt := quiet.alike.search.reqCnt.trans renewed.reqCnt
  reqLastTtl := quiet.alike.search.reqLastTtl.trans renewed.reqLastTtl
  lastHopCount := quiet.alike.search.lastHopCount.trans renewed.lastHopCount
  silent := by
    have late : out'.filterMap (ownTtl m.index d) = [] := quiet.silent
    rw [show m.index = a.index from renewed.index] at late
    rw [List.filterMap_append, renewed.silent, late, List.append_nil]

/-- Nothing happens after something has happened. -/
theorem Outcome.settled (outcome : Outcome now d a (m, out)) (quiet : Quiet d m (b, out')) (fewer : b.waiting d ≤ m.waiting d) :
    Outcome now d a (b, out ++ out') := by
  have index : m.index = a.index := outcome.index
  have late : out'.filterMap (ownTtl m.index d) = [] := quiet.silent
  have search : SameSearch (m.entry d) (b.entry d) := quiet.alike.search
  have flags : (b.entry d).flags = .down ↔ (m.entry d).flags = .down := quiet.alike.down
  have all : (out ++ out').filterMap (ownTtl a.index d) = out.filterMap (ownTtl a.index d) := by
    rw [index] at late
    rw [List.filterMap_append, late, List.append_nil]
  have index' : b.index = m.index := quiet.index
  cases outcome with
  | quiet early => exact .quiet (early.trans quiet)
  | kept kept => exact .kept (kept.settled quiet)
  | requested _ due few same down sent =>
    exact .requested (index'.trans index) due few (same.trans search) (fun fell => down (flags.mp fell)) (all.trans sent)
  | dropped _ due many same down silent left =>
    exact .dropped (index'.trans index) due many (same.trans search) (fun fell => down (flags.mp fell)) (all.trans silent)
      (Nat.le_zero.mp (fewer.trans (Nat.le_of_eq left)))
  | fell _ before down lost same silent =>
    exact .fell (index'.trans index) before (flags.mpr down) (quiet.alike.hops.trans lost) (same.trans search) (all.trans silent)

section Routines

theorem forward_rqueue {dst : Option ℕ} : Yields False (a.forward now dst p) fun result => result.1.rqueue = a.rqueue := by
  unfold forward
  refine .ite (fun _ => rfl) fun _ => .ite (fun _ => rfl) fun _ => ?_
  cases dst with
  | none => exact .of_asserting False.elim fun _ => rfl
  | some d => exact .bind (.of_exists False.elim) fun rt _ => .of_asserting False.elim fun _ => rfl

theorem forwardAll_rqueue : Yields False (a.forwardAll now d ps) fun result => result.1.rqueue = a.rqueue := by
  induction ps generalizing a with
  | nil => exact (rfl : a.rqueue = a.rqueue)
  | cons p rest ih =>
    refine .bind forward_rqueue ?_
    rintro ⟨m, out⟩ same
    refine .bind ih ?_
    rintro ⟨b, out'⟩ later
    exact later.trans same

theorem waiting_dequeAll (a : AODV) (now : ℚ) (dst d : ℕ) : (a.dequeAll now dst).1.waiting d ≤ a.waiting d := by
  unfold waiting dequeAll
  exact ((List.filter_sublist).trans (List.filter_sublist)).countP_le

theorem dequeAll_empties (a : AODV) (now : ℚ) (d : ℕ) : (a.dequeAll now d).1.waiting d = 0 := by
  unfold waiting dequeAll
  refine List.countP_eq_zero.mpr fun q member towards => ?_
  exact of_decide_eq_true (List.mem_filter.mp member).2 (of_decide_eq_true towards)

/-- Both properties of what a routine gives. -/
theorem both {routine : Option (AODV × List AodvPacket)} {P Q : AODV × List AodvPacket → Prop} (first : Yields False routine P)
    (second : Yields False routine Q) : Yields False routine fun result => P result ∧ Q result := by
  cases routine with
  | none => exact not_false
  | some result => exact ⟨first, second⟩

theorem flush_quiet (tame : a.Tame) (d : ℕ) :
    Yields False (a.flush now dst) fun result => Quiet d a result ∧ result.1.waiting d ≤ a.waiting d := by
  have fewer : Yields False (a.flush now dst) fun result => result.1.waiting d ≤ a.waiting d := by
    refine .mono forwardAll_rqueue fun result same => ?_
    unfold waiting
    rw [same]
    exact waiting_dequeAll a now dst d
  refine both (.mono (both flush_touched (flush_data tame)) fun result held => ?_) fewer
  exact held.1.quiet (silent_data held.2 a.index d)

theorem ownTtl_request (a : AODV) (now : ℚ) (rt : AodvRtEntry) (towards : rt.dst = dst) (d : ℕ) :
    [a.request now rt].filterMap (ownTtl a.index d) = if dst = d then [(rt.reqLastTtl : ℤ)] else [] := by
  have test : ownTtl a.index d (a.request now rt) = if dst = d then some (rt.reqLastTtl : ℤ) else none := by
    unfold ownTtl request
    dsimp only
    rw [towards]
    exact if_congr (and_iff_right rfl) rfl rfl
  rw [List.filterMap_cons, test]
  split_ifs <;> rfl

theorem sendRequest_quiet (other : d ≠ dst) : Yields False (a.sendRequest now dst) (Quiet d a) := by
  unfold sendRequest
  refine .bind (.of_exists False.elim) fun rt found => ?_
  have here := rtLookup_dst found
  have elsewhere (new : AodvRtEntry) (towards : new.dst = dst) : Quiet d a (a.rtSet new, []) :=
    .rtSet new found towards fun same => absurd same other
  refine .ite (fun _ => .of_asserting False.elim fun _ => .idle d a) fun _ => .ite (fun _ => .idle d a) fun _ => .ite (fun _ => ?_) fun _ => ?_
  · exact (elsewhere { rt with reqTimeout := now + 10, reqCnt := 0 } here).trans (.of_rtable rfl rfl rfl)
  · refine .of_asserting False.elim fun _ => (elsewhere (rt.requested now) here).trans (.of_rtable rfl rfl ?_)
    exact (ownTtl_request a now (rt.requested now) here d).trans (if_neg other.symm)

theorem sendRequest_fewer (d : ℕ) : Yields False (a.sendRequest now dst) fun result => result.1.waiting d ≤ a.waiting d := by
  unfold sendRequest
  refine .bind (.of_exists False.elim) fun rt found => ?_
  refine .ite (fun _ => .of_asserting False.elim fun _ => ?_) fun _ => .ite (fun _ => ?_) fun _ => .ite (fun _ => ?_) fun _ => ?_
  · exact Nat.le_refl (a.waiting d)
  · exact Nat.le_refl (a.waiting d)
  · exact waiting_dequeAll (a.rtSet { rt with reqTimeout := now + 10, reqCnt := 0 }) now dst d
  · exact .of_asserting False.elim fun _ => Nat.le_refl (a.waiting d)

theorem sendRequest_asks : Yields False (a.sendRequest now d) (Outcome now d a) := by
  unfold sendRequest
  refine .bind (.of_exists False.elim) fun rt found => ?_
  have here := rtLookup_dst found
  have before : a.entry d = rt := entry_found found
  have set (new : AodvRtEntry) (towards : new.dst = d) : (a.rtSet new).entry d = new := (entry_rtSet new found towards d).trans (if_pos rfl)
  refine .ite (fun _ => .of_asserting False.elim fun _ => .quiet (.idle d a)) fun _ => .ite (fun _ => .quiet (.idle d a)) fun due => ?_
  have due := not_lt.mp due
  refine .ite (fun many => ?_) fun few => .of_asserting False.elim fun _ => ?_
  · have after : ((a.rtSet { rt with reqTimeout := now + 10, reqCnt := 0 }).dequeAll now d).1.entry d =
        (a.rtSet { rt with reqTimeout := now + 10, reqCnt := 0 }).entry d := entry_congr rfl
    rw [set { rt with reqTimeout := now + 10, reqCnt := 0 } here] at after
    have left := dequeAll_empties (a.rtSet { rt with reqTimeout := now + 10, reqCnt := 0 }) now d
    have index : ((a.rtSet { rt with reqTimeout := now + 10, reqCnt := 0 }).dequeAll now d).1.index = a.index := rfl
    generalize ((a.rtSet { rt with reqTimeout := now + 10, reqCnt := 0 }).dequeAll now d).1 = b at after left index
    refine .dropped index (before ▸ due) (before ▸ many) ?_ ?_ rfl left
    · rw [before, after]
      exact .refl _
    · rw [before, after]
      exact id
  · have after : AODV.entry { a.rtSet (rt.requested now) with bid := a.bid + 1, seqno := (a.seqno + 2) % 2 ^ 32 } d =
        (a.rtSet (rt.requested now)).entry d := entry_congr rfl
    rw [set (rt.requested now) here] at after
    have index : AODV.index { a.rtSet (rt.requested now) with bid := a.bid + 1, seqno := (a.seqno + 2) % 2 ^ 32 } = a.index := rfl
    have own : [a.request now (rt.requested now)].filterMap (ownTtl a.index d) = [((rt.requested now).reqLastTtl : ℤ)] :=
      (ownTtl_request a now (rt.requested now) here d).trans (if_pos rfl)
    generalize ({ a.rtSet (rt.requested now) with bid := a.bid + 1, seqno := (a.seqno + 2) % 2 ^ 32 } : AODV) = b at after index
    refine .requested index (before ▸ due) (before ▸ Nat.le_of_not_lt few) ?_ ?_ (before ▸ own)
    · rw [before, after]
      exact .refl _
    · rw [before, after]
      exact id

theorem sendRequest_outcome (d : ℕ) : Yields False (a.sendRequest now dst) (Outcome now d a) := by
  by_cases towards : d = dst
  · exact towards ▸ sendRequest_asks
  · exact .mono (sendRequest_quiet towards) fun _ quiet => .quiet quiet

theorem sendRequest_flags (d : ℕ) : Yields False (a.sendRequest now dst) fun result => (result.1.entry d).flags = (a.entry d).flags := by
  unfold sendRequest
  refine .bind (.of_exists False.elim) fun rt found => ?_
  have here := rtLookup_dst found
  have set (new : AodvRtEntry) (towards : new.dst = dst) (flags : new.flags = rt.flags) : ((a.rtSet new).entry d).flags = (a.entry d).flags := by
    rw [entry_rtSet new found towards]
    split_ifs with at'
    · rw [at', entry_found found]
      exact flags
    · rfl
  have same (b : AODV) (new : AodvRtEntry) (rtable : b.rtable = (a.rtSet new).rtable) (towards : new.dst = dst)
      (flags : new.flags = rt.flags) : (b.entry d).flags = (a.entry d).flags := by
    rw [entry_congr (by unfold rtLookup; rw [rtable] : b.rtLookup d = (a.rtSet new).rtLookup d)]
    exact set new towards flags
  refine .ite (fun _ => .of_asserting False.elim fun _ => rfl) fun _ => .ite (fun _ => rfl) fun _ => ?_
  refine .ite (fun _ => same _ { rt with reqTimeout := now + 10, reqCnt := 0 } rfl here rfl) fun _ => ?_
  exact .of_asserting False.elim fun _ => same _ (rt.requested now) rfl here rfl

/-- A change of the entry that leaves the search as it is, before a routine after which the route is not down. -/
theorem Outcome.revived (outcome : Outcome now d m (b, out)) (index : m.index = a.index) (same : SameSearch (a.entry d) (m.entry d))
    (alive : (b.entry d).flags ≠ .down) : Outcome now d a (b, out) := by
  have silent' : out.filterMap (ownTtl a.index d) = out.filterMap (ownTtl m.index d) := by rw [index]
  cases outcome with
  | quiet quiet => exact .kept ⟨quiet.index.trans index, alive, same.trans quiet.alike.search, silent'.trans quiet.silent⟩
  | kept kept => exact .kept ⟨kept.index.trans index, alive, same.trans kept.same, silent'.trans kept.silent⟩
  | requested index' due few same' down sent =>
    refine .requested (index'.trans index) (same.reqTimeout ▸ due) (same.reqCnt ▸ few) (same.requested.trans same')
      (fun fell => absurd fell alive) ?_
    have next : ((m.entry d).requested now).reqLastTtl = ((a.entry d).requested now).reqLastTtl := same.requested.reqLastTtl
    rw [show (b, out).2 = out from rfl, silent', ← next]
    exact sent
  | dropped index' due many same' down silent left =>
    refine .dropped (index'.trans index) (same.reqTimeout ▸ due) (same.reqCnt ▸ many) ?_ (fun fell => absurd fell alive) (silent'.trans silent) left
    exact ⟨same'.reqTimeout, same'.reqCnt, same'.reqLastTtl.trans same.reqLastTtl, same'.lastHopCount.trans same.lastHopCount,
      same'.discLatency.trans same.discLatency⟩
  | fell _ _ down _ _ _ => exact absurd down alive

end Routines

section LinkFailure

theorem rtDown_alive (alive : rt.flags ≠ .down) :
    rt.rtDown = { rt with lastHopCount := rt.hops, hops := aodvInfinity, flags := .down, nexthop := 0, expire := 0 } := if_neg alive

theorem rtDown_down (down : rt.flags = .down) : rt.rtDown = rt := if_pos down

/-- A routine that may take the route down. -/
structure Failing (now : ℚ) (d : ℕ) (a : AODV) (result : AODV × List AodvPacket) : Prop where
  cases : Quiet d a result ∨ Outcome now d a result ∧ (result.1.entry d).hops = aodvInfinity
  lost : (a.entry d).hops = aodvInfinity → Quiet d a result
  fewer : result.1.waiting d ≤ a.waiting d

theorem Failing.outcome (failing : Failing now d a result) : Outcome now d a result := failing.cases.elim .quiet And.left

theorem Failing.of_quiet (quiet : Quiet d a result) (fewer : result.1.waiting d ≤ a.waiting d) : Failing now d a result :=
  ⟨Or.inl quiet, fun _ => quiet, fewer⟩

theorem Failing.trans (first : Failing now d a (m, out)) (second : Failing now d m (b, out')) : Failing now d a (b, out ++ out') where
  cases := by
    rcases first.cases with quiet | ⟨outcome, lost⟩
    · rcases second.cases with later | ⟨outcome, lost⟩
      · exact Or.inl (quiet.trans later)
      · exact Or.inr ⟨quiet.followed outcome, lost⟩
    · have later := second.lost lost
      exact Or.inr ⟨outcome.settled later second.fewer, later.alike.hops.trans lost⟩
  lost already := by
    have quiet := first.lost already
    exact quiet.trans (second.lost (quiet.alike.hops.trans already))
  fewer := second.fewer.trans first.fewer

/-- A route that is up goes down. -/
theorem Failing.fallen {new : AodvRtEntry} (index : b.index = a.index) (rqueue : b.rqueue = a.rqueue)
    (up : (a.entry d).flags = .up) (finite : (a.entry d).hops ≠ aodvInfinity) (entry : b.entry d = new)
    (down : new.flags = .down) (hops : new.hops = aodvInfinity) (same : SameSearch { a.entry d with lastHopCount := (a.entry d).hops } new)
    (silent : out.filterMap (ownTtl a.index d) = []) : Failing now d a (b, out) := by
  have alive : (a.entry d).flags ≠ .down := by
    rw [up]
    decide
  refine ⟨Or.inr ⟨.fell index alive ?_ ?_ ?_ silent, ?_⟩, fun lost => absurd lost finite, ?_⟩
  · exact entry ▸ down
  · exact entry ▸ hops
  · exact entry ▸ same
  · exact entry ▸ hops
  · unfold waiting
    rw [show (b, out).1.rqueue = a.rqueue from rqueue]

theorem handleLinkFailure_failing (now : ℚ) (id d : ℕ) : Yields False (a.handleLinkFailure id) (Failing now d a) := by
  refine .of_asserting False.elim fun all => ?_
  have silent : (if (a.rtable.filter fun rt => usesLink id rt).map (fun rt => (rt.dst, rt.raise.seqno)) = [] then []
      else a.sendError ((a.rtable.filter fun rt => usesLink id rt).map fun rt => (rt.dst, rt.raise.seqno))).filterMap (ownTtl a.index d) = [] := by
    split_ifs <;> rfl
  have lookup := rtLookup_map (a := a) (afterFailure id) (fun rt _ => afterFailure_dst id rt) d
  cases found : a.rtLookup d with
  | none =>
    rw [found] at lookup
    exact .of_quiet (.of_lookup rfl (lookup.trans found.symm) silent) le_rfl
  | some rt =>
    rw [found, Option.map_some] at lookup
    have before := entry_found found
    have after := entry_found lookup
    by_cases uses : usesLink id rt
    · have up := (all rt (rtLookup_mem found) uses).1
      have raised : rt.raise.flags ≠ .down := by
        rw [show rt.raise.flags = .up from up]
        decide
      have new : afterFailure id rt = _ := congrArg (AodvRtEntry.pcDelete · id) ((if_pos uses).trans (rtDown_alive raised))
      refine .fallen rfl rfl (before ▸ up) (before ▸ uses.1) (after.trans new) rfl rfl ?_ silent
      rw [before]
      exact ⟨rfl, rfl, rfl, rfl, rfl⟩
    · have new : afterFailure id rt = rt.pcDelete id := congrArg (AodvRtEntry.pcDelete · id) (if_neg uses)
      have alike : Alike rt (rt.pcDelete id) := ⟨⟨rfl, rfl, rfl, rfl, rfl⟩, rfl, Iff.rfl⟩
      exact .of_quiet ⟨rfl, before.symm ▸ (after.trans new).symm ▸ alike, silent⟩ le_rfl

theorem nbDelete_failing (now : ℚ) (id d : ℕ) : Yields False (a.nbDelete id) (Failing now d a) := by
  refine .of_asserting False.elim fun _ => .mono (handleLinkFailure_failing now id d) ?_
  rintro ⟨b, out⟩ failing
  have changed : Failing now d a ({ a.neighborsChanged with nbhead := a.nbhead.eraseP (·.addr = id) }, []) :=
    .of_quiet (.of_rtable rfl rfl rfl) le_rfl
  exact changed.trans failing

theorem nbDeleteAll_failing {ids : List ℕ} (now : ℚ) (d : ℕ) : Yields False (a.nbDeleteAll ids) (Failing now d a) := by
  induction ids generalizing a with
  | nil => exact Failing.of_quiet (.idle d a) le_rfl
  | cons id rest ih =>
    refine .bind (nbDelete_failing now id d) ?_
    rintro ⟨m, out⟩ first
    refine .bind ih ?_
    rintro ⟨b, out'⟩ later
    exact first.trans later

theorem rtLlFailed_outcome (d : ℕ) : Yields False (a.rtLlFailed now p) (Outcome now d a) := by
  unfold rtLlFailed
  split
  · rename_i numForwards daddr body towards
    cases found : a.rtLookup daddr with
    | none => exact Outcome.quiet (.idle d a)
    | some rt =>
      refine .ite (fun _ => ?_) fun _ => .mono (nbDelete_failing now _ d) fun _ failing => failing.outcome
      have here := rtLookup_dst found
      have queued : (a.enque now p).entry d = a.entry d := entry_congr rfl
      have marked : ((a.enque now p).rtSet { rt with flags := .inRepair }).entry d =
          if d = daddr then { rt with flags := .inRepair } else (a.enque now p).entry d :=
        entry_rtSet (a := a.enque now p) { rt with flags := .inRepair } found here d
      refine .mono (both (sendRequest_outcome d) (sendRequest_flags d)) ?_
      rintro ⟨b, out⟩ ⟨outcome, flags⟩
      rw [marked] at flags
      by_cases repairs : d = daddr
      · rw [if_pos repairs] at flags marked
        refine outcome.revived rfl ?_ ?_
        · rw [marked, repairs, entry_found found]
          exact ⟨rfl, rfl, rfl, rfl, rfl⟩
        · rw [show (b.entry d).flags = .inRepair from flags]
          decide
      · rw [if_neg repairs, queued] at marked
        have quiet : Quiet d a ((a.enque now p).rtSet { rt with flags := .inRepair }, []) := ⟨rfl, marked.symm ▸ .refl _, rfl⟩
        exact quiet.followed outcome
  · exact Outcome.quiet (.idle d a)

theorem localRepairTimeout_outcome (d : ℕ) : Outcome now d a (a.localRepairTimeout dst, []) := by
  unfold localRepairTimeout
  cases found : a.rtLookup dst with
  | none => exact .quiet (.idle d a)
  | some rt =>
    dsimp only
    split_ifs with notUp
    · have here := rtLookup_dst found
      have entry := entry_rtSet rt.rtDown found ((rtDown_dst rt).trans here) d
      by_cases towards : d = dst
      · rw [if_pos towards] at entry
        have before : a.entry d = rt := entry_found (towards ▸ found)
        by_cases down : rt.flags = .down
        · rw [rtDown_down down] at entry ⊢
          exact .quiet ⟨rfl, by rw [before, show AODV.entry _ d = _ from entry]; exact .refl rt, rfl⟩
        · rw [rtDown_alive down] at entry ⊢
          refine .fell rfl (before ▸ down) ?_ ?_ ?_ rfl
          · rw [show AODV.entry _ d = _ from entry]
          · rw [show AODV.entry _ d = _ from entry]
          · rw [before, show AODV.entry _ d = _ from entry]
            exact ⟨rfl, rfl, rfl, rfl, rfl⟩
      · rw [if_neg towards] at entry
        exact .quiet ⟨rfl, entry.symm ▸ .refl _, rfl⟩
    · exact .quiet (.idle d a)

theorem errorEntry_failing {seqno : ℕ} (now : ℚ) (d : ℕ) :
    Yields False (a.errorEntry saddr dst seqno) fun result => Failing now d a (result.1, []) := by
  unfold errorEntry
  cases found : a.rtLookup dst with
  | none => exact Failing.of_quiet (.idle d a) le_rfl
  | some rt =>
    refine .ite (fun uses => .of_asserting False.elim fun up => .of_asserting False.elim fun _ => ?_) fun _ => Failing.of_quiet (.idle d a) le_rfl
    have here := rtLookup_dst found
    have alive : ({ rt with seqno := seqno } : AodvRtEntry).flags ≠ .down := by
      rw [show ({ rt with seqno := seqno } : AodvRtEntry).flags = .up from up]
      decide
    rw [rtDown_alive alive]
    have lost (new : AodvRtEntry) (towards : new.dst = dst) (down : new.flags = .down) (hops : new.hops = aodvInfinity)
        (same : SameSearch { rt with lastHopCount := rt.hops } new) : Failing now d a (a.rtSet new, []) := by
      by_cases at' : d = dst
      · have before : a.entry d = rt := entry_found (at' ▸ found)
        have after : (a.rtSet new).entry d = new := (entry_rtSet new found towards d).trans (if_pos at')
        exact .fallen rfl rfl (before ▸ up) (before ▸ uses.1) after down hops (before ▸ same) rfl
      · exact .of_quiet (.rtSet new found towards fun same => absurd same at') le_rfl
    exact .ite (fun _ => lost _ here rfl rfl ⟨rfl, rfl, rfl, rfl, rfl⟩) fun _ => lost _ here rfl rfl ⟨rfl, rfl, rfl, rfl, rfl⟩

theorem errorEntries_failing {unreachable : List (ℕ × ℕ)} (now : ℚ) (d : ℕ) :
    Yields False (a.errorEntries saddr unreachable) fun result => Failing now d a (result.1, []) := by
  induction unreachable generalizing a with
  | nil => exact Failing.of_quiet (.idle d a) le_rfl
  | cons lost rest ih =>
    refine .bind (errorEntry_failing now d) ?_
    rintro ⟨m, report⟩ first
    refine .bind ih ?_
    rintro ⟨b, report'⟩ later
    exact first.trans later

theorem recvError_outcome {unreachable : List (ℕ × ℕ)} (d : ℕ) : Yields False (a.recvError saddr unreachable) (Outcome now d a) := by
  refine .map (errorEntries_failing now d) ?_
  rintro ⟨b, report⟩ failing
  have reported : Quiet d b (b, if report = [] then [] else b.sendError report) := by
    refine .of_rtable rfl rfl ?_
    split_ifs <;> rfl
  exact failing.outcome.settled reported le_rfl

end LinkFailure

section Purge

theorem purgeEntry_quiet (tame : a.Tame) (other : d ≠ dst) :
    Yields False (a.purgeEntry now dst) fun result => Quiet d a result ∧ result.1.waiting d ≤ a.waiting d := by
  refine .bind (.of_exists False.elim) fun rt found => ?_
  refine .ite (fun _ => .of_asserting False.elim fun _ => .of_asserting False.elim fun _ => ?_) fun _ => .ite (fun _ => ?_) fun _ => .ite (fun _ => ?_) fun _ => ?_
  · have here : rt.dst = dst := rtLookup_dst found
    have emptied : Quiet d a ((a.dequeAll now dst).1, []) := .of_rtable rfl rfl rfl
    have down : Quiet d (a.dequeAll now dst).1 ((a.dequeAll now dst).1.rtSet rt.raise.rtDown, []) :=
      .rtSet rt.raise.rtDown found ((rtDown_dst rt.raise).trans here) fun same => absurd same other
    exact ⟨emptied.trans down, waiting_dequeAll a now dst d⟩
  · exact .of_asserting False.elim fun _ => flush_quiet tame d
  · exact both (sendRequest_quiet other) (sendRequest_fewer d)
  · exact ⟨.idle d a, le_rfl⟩

theorem purgeEntry_outcome (tame : a.Tame) : Yields False (a.purgeEntry now d) (Outcome now d a) := by
  refine .bind (.of_exists False.elim) fun rt found => ?_
  refine .ite (fun expired => .of_asserting False.elim fun _ => .of_asserting False.elim fun _ => ?_) fun _ => .ite (fun _ => ?_) fun _ => .ite (fun _ => ?_) fun _ => ?_
  · have before : a.entry d = rt := entry_found found
    have alive : rt.raise.flags ≠ .down := by
      rw [show rt.raise.flags = .up from expired.1]
      decide
    have here : rt.dst = d := rtLookup_dst found
    have after := entry_rtSet (a := (a.dequeAll now d).1) rt.raise.rtDown found ((rtDown_dst rt.raise).trans here) d
    rw [if_pos rfl, rtDown_alive alive] at after
    rw [rtDown_alive alive]
    have up : (a.entry d).flags ≠ .down := before ▸ alive
    refine .fell rfl up ?_ ?_ ?_ rfl
    · rw [show AODV.entry _ d = _ from after]
    · rw [show AODV.entry _ d = _ from after]
    · rw [show AODV.entry _ d = _ from after, before]
      exact ⟨rfl, rfl, rfl, rfl, rfl⟩
  · exact .of_asserting False.elim fun _ => .mono (flush_quiet tame d) fun _ held => .quiet held.1
  · exact sendRequest_outcome d
  · exact Outcome.quiet (.idle d a)

theorem purgeEntries_quiet {ds : List ℕ} (tame : a.Tame) (others : d ∉ ds) :
    Yields False (a.purgeEntries now ds) fun result => Quiet d a result ∧ result.1.waiting d ≤ a.waiting d := by
  induction ds generalizing a with
  | nil => exact And.intro (Quiet.idle d a) le_rfl
  | cons dst rest ih =>
    have other := not_or.mp fun inside => others (List.mem_cons.mpr inside)
    refine .bind (both (purgeEntry_quiet tame other.1) (purgeEntry_tamed tame)) ?_
    rintro ⟨m, out⟩ ⟨first, tamed⟩
    refine .bind (ih tamed.tame other.2) ?_
    rintro ⟨b, out'⟩ later
    exact ⟨first.1.trans later.1, later.2.trans first.2⟩

/-- Each destination has its turn once. -/
theorem purgeEntries_outcome {ds : List ℕ} (tame : a.Tame) (distinct : ds.Nodup) :
    Yields False (a.purgeEntries now ds) (Outcome now d a) := by
  induction ds generalizing a with
  | nil => exact Outcome.quiet (.idle d a)
  | cons dst rest ih =>
    obtain ⟨once, distinct⟩ := List.nodup_cons.mp distinct
    by_cases here : d = dst
    · subst here
      refine .bind (both (purgeEntry_outcome tame) (purgeEntry_tamed tame)) ?_
      rintro ⟨m, out⟩ ⟨first, tamed⟩
      refine .bind (purgeEntries_quiet tamed.tame once) ?_
      rintro ⟨b, out'⟩ later
      exact first.settled later.1 later.2
    · refine .bind (both (purgeEntry_quiet tame here) (purgeEntry_tamed tame)) ?_
      rintro ⟨m, out⟩ ⟨first, tamed⟩
      refine .bind (ih tamed.tame distinct) ?_
      rintro ⟨b, out'⟩ later
      exact first.1.followed later

end Purge

end AODV

end Ns2
