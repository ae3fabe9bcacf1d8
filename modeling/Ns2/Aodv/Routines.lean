import Ns2.Aodv.Discipline

namespace Ns2

open AODV

/-- All routes stay as they are. -/
def Steady (a b : AODV) : Prop := ∀ d, Option.Rel SameRoute (a.rtLookup d) (b.rtLookup d)

/-- The agent has a valid route. -/
def UpAt (a : AODV) (d : ℕ) : Prop := ∃ rt, a.rtLookup d = some rt ∧ rt.flags = .up

/-- A route over the link to this neighbor is valid. -/
def LinkUp (a : AODV) (id : ℕ) : Prop := ∀ rt ∈ a.rtable, usesLink id rt → rt.flags = .up

theorem SameRoute.trans {rt mid rt' : AodvRtEntry} (first : SameRoute rt mid) (second : SameRoute mid rt') : SameRoute rt rt' where
  dst := second.dst.trans first.dst
  seqno := second.seqno.trans first.seqno
  hops := second.hops.trans first.hops
  nexthop := second.nexthop.trans first.nexthop
  flags := second.flags.trans first.flags

theorem SameRoute.refl (rt : AodvRtEntry) : SameRoute rt rt := ⟨rfl, rfl, rfl, rfl, rfl⟩

theorem Steady.of_eq {a b : AODV} (rtable : b.rtable = a.rtable) : Steady a b := fun d => by
  unfold rtLookup
  rw [rtable]
  cases a.rtable.find? fun rt => decide (rt.dst = d) with
  | none => exact .none
  | some rt => exact .some (.refl rt)

theorem Steady.trans {a b c : AODV} (first : Steady a b) (second : Steady b c) : Steady a c := fun d => by
  have early := first d
  have late := second d
  generalize a.rtLookup d = old at early ⊢
  generalize b.rtLookup d = mid at early late
  generalize c.rtLookup d = new at late ⊢
  cases early with
  | none =>
    cases late
    exact .none
  | some same =>
    cases late with
    | some same' => exact .some (same.trans same')

theorem Steady.onward {a b : AODV} {d : ℕ} {rt : AodvRtEntry} (steady : Steady a b) (found : a.rtLookup d = some rt) :
    ∃ rt', b.rtLookup d = some rt' ∧ SameRoute rt rt' := by
  have related := steady d
  rw [found] at related
  generalize b.rtLookup d = new at related ⊢
  cases related with
  | some same => exact ⟨_, rfl, same⟩

theorem Steady.back {a b : AODV} {d : ℕ} {rt' : AodvRtEntry} (steady : Steady a b) (found : b.rtLookup d = some rt') :
    ∃ rt, a.rtLookup d = some rt ∧ SameRoute rt rt' := by
  have related := steady d
  rw [found] at related
  generalize a.rtLookup d = old at related ⊢
  cases related with
  | some same => exact ⟨_, rfl, same⟩

theorem Steady.rtSet {a : AODV} {d : ℕ} {old rt : AodvRtEntry} (found : a.rtLookup d = some old) (same : SameRoute old rt) :
    Steady a (a.rtSet rt) := fun d' => by
  rw [rtLookup_rtSet]
  split_ifs with here
  · have dst : d' = d := (here.trans same.dst).trans (rtLookup_dst found)
    rw [dst, found]
    exact .some same
  · cases a.rtLookup d' with
    | none => exact .none
    | some rt' => exact .some (.refl rt')

theorem UpAt.steady {a b : AODV} {d : ℕ} (up : UpAt a d) (steady : Steady a b) : UpAt b d := by
  obtain ⟨rt, found, flags⟩ := up
  obtain ⟨rt', found', same⟩ := steady.onward found
  exact ⟨rt', found', same.flags.trans flags⟩

namespace AodvDiscipline

variable {D : AodvDiscipline} {strict : Prop} {a b : AODV} {p : AodvPacket} {rt old : AodvRtEntry} {out : List AodvPacket}
  {now : ℚ} {d : ℕ}

theorem Sends.readdress {p' : AodvPacket} (sends : D.Sends a p) (ttl : p'.ttl = p.ttl) (saddr : p'.saddr = p.saddr)
    (daddr : p'.daddr = p.daddr) (body : p'.body = p.body) : D.Sends a p' := by
  unfold Sends at sends ⊢
  rw [ttl, saddr, daddr, body]
  exact sends

theorem sends_data (data : p.body.isData = true) : D.Sends a p := by
  unfold Sends
  cases body : p.body with
  | data numForwards => trivial
  | request rq =>
    rw [body] at data
    cases data
  | reply rp =>
    rw [body] at data
    cases data
  | error unreachable =>
    rw [body] at data
    cases data
  | hello rh => trivial

section Forward

/-- What forwarding does: routes stay, and what is sent may be sent. -/
structure Forwarded (D : AodvDiscipline) (a : AODV) (result : AODV × List AodvPacket) : Prop where
  good : D.Good a result
  steady : Steady a result.1

theorem Forwarded.idle (kept : D.Kept a) : D.Forwarded a (a, []) := ⟨.idle kept, .of_eq rfl⟩

theorem forward_to (kept : D.Kept a) (up : strict → UpAt a d ∧ p.daddr ≠ none) (sends : p.ttl ≠ 0 → D.Sends a p) :
    Yields strict (a.forward now (some d) p) (D.Forwarded a) := by
  unfold forward
  refine .ite (fun _ => Forwarded.idle kept) fun alive => .ite (fun _ => Forwarded.idle kept) fun _ => ?_
  refine .bind (.of_exists fun claimed => (up claimed).1.imp fun rt held => held.1) fun rt found => ?_
  refine .of_asserting (fun claimed => ?_) fun _ => ?_
  · obtain ⟨⟨rt', found', flags⟩, daddr⟩ := up claimed
    rw [found] at found'
    cases Option.some.inj found'
    exact ⟨flags, daddr⟩
  · have same : SameRoute rt { rt with expire := now + 10 } := ⟨rfl, rfl, rfl, rfl, rfl⟩
    have changed : D.Good a (a.rtSet { rt with expire := now + 10 }, []) := .rtSet_same kept found same
    refine ⟨⟨changed.kept, changed.onward, fun p' member => ?_⟩, .rtSet found same⟩
    cases List.mem_singleton.mp member
    exact ((sends alive).onward changed.onward).readdress rfl rfl rfl rfl

theorem forward_on (kept : D.Kept a) (daddr : p.daddr = none) (sends : p.ttl ≠ 0 → D.Sends a p) :
    Yields strict (a.forward now none p) (D.Forwarded a) := by
  unfold forward
  refine .ite (fun _ => Forwarded.idle kept) fun alive => .ite (fun _ => Forwarded.idle kept) fun _ => ?_
  refine .of_asserting (fun _ => daddr) fun _ => ⟨⟨kept, .of_eq kept rfl rfl, fun p' member => ?_⟩, .of_eq rfl⟩
  cases List.mem_singleton.mp member
  exact (sends alive).readdress rfl rfl rfl rfl

theorem Forwarded.trans {c : AODV} {out' : List AodvPacket} (first : D.Forwarded a (b, out)) (second : D.Forwarded b (c, out')) :
    D.Forwarded a (c, out ++ out') := ⟨first.good.trans second.good, first.steady.trans second.steady⟩

theorem forwardAll_yields {ps : List AodvPacket} (kept : D.Kept a) (up : strict → UpAt a d)
    (all : ∀ p ∈ ps, p.daddr = some d ∧ p.body.isData = true) : Yields strict (a.forwardAll now d ps) (D.Forwarded a) := by
  induction ps generalizing a with
  | nil => exact Forwarded.idle kept
  | cons p rest ih =>
    obtain ⟨first, others⟩ := List.forall_mem_cons.mp all
    have daddr : p.daddr ≠ none := by
      rw [first.1]
      exact Option.some_ne_none d
    refine .bind (forward_to kept (fun claimed => ⟨up claimed, daddr⟩) fun _ => sends_data first.2) ?_
    rintro ⟨b, sent⟩ forwarded
    refine .bind (ih forwarded.good.kept (fun claimed => (up claimed).steady forwarded.steady) others) ?_
    rintro ⟨c, more⟩ later
    exact Yields.some (forwarded.trans later)

theorem dequeAll_kept (kept : D.Kept a) (now : ℚ) (d : ℕ) : D.Forwarded a ((a.dequeAll now d).1, []) where
  good := .of_eq kept kept.seqno rfl rfl
    (fun q member => kept.queued q (List.mem_of_mem_filter (List.mem_of_mem_filter member))) (by simp)
  steady := .of_eq rfl

theorem dequeAll_packets (kept : D.Kept a) (now : ℚ) (d : ℕ) :
    ∀ p ∈ (a.dequeAll now d).2, p.daddr = some d ∧ p.body.isData = true := by
  intro p member
  obtain ⟨q, inside, same⟩ := List.mem_map.mp member
  subst same
  obtain ⟨queued, daddr⟩ := List.mem_filter.mp inside
  exact ⟨of_decide_eq_true daddr, kept.queued q (List.mem_of_mem_filter queued)⟩

theorem flush_yields (kept : D.Kept a) (up : strict → UpAt a d) : Yields strict (a.flush now d) (D.Forwarded a) := by
  have emptied := dequeAll_kept kept now d
  refine .mono (forwardAll_yields emptied.good.kept (fun claimed => (up claimed).steady emptied.steady)
    (dequeAll_packets kept now d)) ?_
  rintro ⟨b, out⟩ forwarded
  exact emptied.trans forwarded

theorem enque_good (kept : D.Kept a) (now : ℚ) (data : p.body.isData = true) : D.Forwarded a (a.enque now p, []) where
  good := by
    refine .of_eq kept kept.seqno rfl rfl (fun q member => ?_) (by simp)
    rcases List.mem_append.mp member with old | new
    · split_ifs at old
      · exact kept.queued q (List.mem_of_mem_filter (List.mem_of_mem_tail old))
      · exact kept.queued q (List.mem_of_mem_filter old)
    · cases List.mem_singleton.mp new
      exact data
  steady := .of_eq rfl

end Forward

section Request

theorem validSeqno_add_two {seqno : ℕ} (valid : ValidSeqno seqno) : ValidSeqno ((seqno + 2) % 2 ^ 32) := by
  obtain ⟨even, small⟩ := valid
  constructor <;> omega

/-- The TTL of a route request. -/
theorem requested_ttl (rt : AodvRtEntry) (now : ℚ) : 1 ≤ (rt.requested now).reqLastTtl ∧ (rt.requested now).reqLastTtl ≤ 30 := by
  unfold AodvRtEntry.requested
  dsimp only
  split_ifs <;> omega

theorem sendRequest_yields (kept : D.Kept a) (found : a.rtLookup d = some rt) : Yields strict (a.sendRequest now d) (D.Good a) := by
  unfold AODV.sendRequest
  rw [found]
  dsimp only [Option.bind_eq_bind, Option.bind_some]
  have next := validSeqno_add_two kept.seqno
  refine .ite (fun up => .of_asserting (fun _ => D.finite rt (kept.entry found) up) fun _ => .idle kept) fun _ => ?_
  refine .ite (fun _ => .idle kept) fun _ => .ite (fun _ => ?_) fun _ => ?_
  · have reset : D.Good a (a.rtSet { rt with reqTimeout := now + 10, reqCnt := 0 }, []) :=
      .rtSet_same kept found ⟨rfl, rfl, rfl, rfl, rfl⟩
    exact reset.trans (dequeAll_kept reset.kept now d).good
  · refine .of_asserting (fun _ => next.even) fun _ => ?_
    have asked : D.Good a (a.rtSet (rt.requested now), []) := .rtSet_same kept found ⟨rfl, rfl, rfl, rfl, rfl⟩
    obtain ⟨positive, bound⟩ := requested_ttl rt now
    refine asked.trans (Good.of_eq asked.kept next rfl rfl asked.kept.queued fun p member => ?_)
    cases List.mem_singleton.mp member
    exact ⟨rfl, by simpa only [AODV.request] using (by omega : (1 : ℤ) ≤ (rt.requested now).reqLastTtl),
      by simpa only [AODV.request] using (by omega : ((1 : ℕ) : ℤ) + (rt.requested now).reqLastTtl ≤ 31), next, Or.inl rfl⟩

end Request

section LinkFailure

theorem sends_error {unreachable : List (ℕ × ℕ)} (all : ∀ lost ∈ unreachable, D.Err lost.2) :
    ∀ p ∈ a.sendError unreachable, D.Sends a p := by
  intro p member
  cases List.mem_singleton.mp member
  exact all

theorem pcDelete_same (rt : AodvRtEntry) (id : ℕ) : SameRoute rt (rt.pcDelete id) := ⟨rfl, rfl, rfl, rfl, rfl⟩

theorem rtDown_dst (rt : AodvRtEntry) : rt.rtDown.dst = rt.dst := by
  unfold AodvRtEntry.rtDown
  split_ifs <;> rfl

theorem rtDown_hops (up : rt.flags = .up) : rt.rtDown.hops = aodvInfinity := by
  unfold AodvRtEntry.rtDown
  rw [if_neg (by rw [up]; decide)]

/-- What becomes of an entry when the link to a neighbor fails. -/
def afterFailure (id : ℕ) (rt : AodvRtEntry) : AodvRtEntry := (if usesLink id rt then rt.raise.rtDown else rt).pcDelete id

theorem afterFailure_dst (id : ℕ) (rt : AodvRtEntry) : (afterFailure id rt).dst = rt.dst := by
  unfold afterFailure
  split_ifs
  · exact rtDown_dst rt.raise
  · rfl

theorem afterFailure_kept {id : ℕ} (entry : D.Entry rt) (up : usesLink id rt → rt.flags = .up) :
    D.Entry (afterFailure id rt) ∧ D.Le rt (afterFailure id rt) := by
  unfold afterFailure
  split_ifs with uses
  · obtain ⟨down, le, _⟩ := D.failed rt entry (up uses)
    obtain ⟨down', le'⟩ := D.same rt.raise.rtDown _ (pcDelete_same _ id) down
    exact ⟨down', D.trans rt rt.raise.rtDown _ le le'⟩
  · exact D.same rt _ (pcDelete_same rt id) entry

theorem afterFailure_linkUp {id id' : ℕ} (up : usesLink id rt → rt.flags = .up) (up' : usesLink id' rt → rt.flags = .up)
    (uses : usesLink id' (afterFailure id rt)) : (afterFailure id rt).flags = .up := by
  unfold afterFailure at uses ⊢
  split_ifs at uses ⊢ with failed
  · have down : rt.raise.rtDown.hops = aodvInfinity := rtDown_hops (up failed)
    exact absurd down uses.1
  · exact up' uses

/-- What a failed link leaves: the entries over other links. -/
structure Failed (D : AodvDiscipline) (a : AODV) (result : AODV × List AodvPacket) : Prop where
  good : D.Good a result
  linkUp : ∀ id, LinkUp a id → LinkUp result.1 id

theorem Failed.trans {c : AODV} {out' : List AodvPacket} (first : D.Failed a (b, out)) (second : D.Failed b (c, out')) :
    D.Failed a (c, out ++ out') := ⟨first.good.trans second.good, fun id up => second.linkUp id (first.linkUp id up)⟩

theorem handleLinkFailure_yields {id : ℕ} (kept : D.Kept a) (up : strict → LinkUp a id) :
    Yields strict (a.handleLinkFailure id) (D.Failed a) := by
  unfold handleLinkFailure
  refine .of_asserting (fun claimed rt member uses => ⟨up claimed rt member uses, ?_⟩) fun all => ?_
  · exact (D.valid rt (kept.entries rt member) uses.1).even
  have valid : LinkUp a id := fun rt member uses => (all rt member uses).1
  have changed : ∀ rt ∈ a.rtable, D.Entry (afterFailure id rt) ∧ D.Le rt (afterFailure id rt) := fun rt member =>
    afterFailure_kept (kept.entries rt member) (valid rt member)
  refine ⟨⟨⟨kept.seqno, ?_, kept.queued⟩, ⟨rfl, fun d rt found => ?_⟩, ?_⟩, fun id' up' rt' member uses => ?_⟩
  · intro rt' member
    obtain ⟨rt, inside, same⟩ := List.mem_map.mp member
    exact same ▸ (changed rt inside).1
  · refine ⟨afterFailure id rt, ?_, (changed rt (rtLookup_mem found)).2⟩
    exact (rtLookup_map (afterFailure id) (fun rt _ => afterFailure_dst id rt) d).trans (by rw [found, Option.map_some])
  · intro p member
    dsimp only at member
    split_ifs at member
    · cases member
    · refine sends_error ?_ p member
      intro lost inside
      obtain ⟨rt, uses, same⟩ := List.mem_map.mp inside
      subst same
      obtain ⟨inTable, fails⟩ := List.mem_filter.mp uses
      have flags := valid rt inTable (of_decide_eq_true fails)
      exact (D.failed rt (kept.entries rt inTable) flags).2.2
  · obtain ⟨rt, inside, same⟩ := List.mem_map.mp member
    subst same
    exact afterFailure_linkUp (valid rt inside) (up' rt inside) uses

theorem nbDelete_yields {id : ℕ} (kept : D.Kept a) (up : strict → LinkUp a id) :
    Yields strict (a.nbDelete id) (D.Failed a) := by
  have next := validSeqno_add_two kept.seqno
  refine .of_asserting (fun _ => next.even) fun _ => ?_
  have changed : D.Good a ({ a.neighborsChanged with nbhead := a.nbhead.eraseP (·.addr = id) }, []) :=
    .of_eq kept next rfl rfl kept.queued (by simp)
  refine .mono (handleLinkFailure_yields changed.kept up) ?_
  rintro ⟨b, out⟩ failed
  exact Failed.trans ⟨changed, fun _ held => held⟩ failed

theorem nbDeleteAll_yields {ids : List ℕ} (kept : D.Kept a) (up : strict → ∀ id ∈ ids, LinkUp a id) :
    Yields strict (a.nbDeleteAll ids) (D.Failed a) := by
  induction ids generalizing a with
  | nil => exact ⟨.idle kept, fun _ held => held⟩
  | cons id rest ih =>
    refine .bind (nbDelete_yields kept fun claimed => up claimed id List.mem_cons_self) ?_
    rintro ⟨b, out⟩ failed
    refine .bind (ih failed.good.kept fun claimed id' member =>
      failed.linkUp id' (up claimed id' (List.mem_cons_of_mem id member))) ?_
    rintro ⟨c, out'⟩ later
    exact Yields.some (failed.trans later)

theorem localRtRepair_yields (kept : D.Kept a) (found : a.rtLookup d = some rt) (data : p.body.isData = true) :
    Yields strict (a.localRtRepair now rt p) (D.Good a) := by
  have queued := enque_good kept now data
  have here := rtLookup_dst found
  obtain ⟨entry, le⟩ := D.repaired rt (kept.entry found)
  have marked : D.Good (a.enque now p) ((a.enque now p).rtSet { rt with flags := .inRepair }, []) :=
    .rtSet queued.good.kept (here.symm ▸ found) entry le
  have lookup : ((a.enque now p).rtSet { rt with flags := .inRepair }).rtLookup rt.dst = some { rt with flags := .inRepair } := by
    rw [rtLookup_rtSet, if_pos rfl, here]
    exact congrArg (Option.map _) found
  refine .mono (sendRequest_yields marked.kept lookup) ?_
  rintro ⟨b, out⟩ sent
  exact queued.good.trans (marked.trans sent)

theorem rtLlFailed_yields (kept : D.Kept a)
    (up : strict → ∀ numForwards daddr rt, p.body = .data numForwards → p.daddr = some daddr → a.rtLookup daddr = some rt →
      ¬numForwards > rt.hops → LinkUp a (p.nextHop.getD 0)) : Yields strict (a.rtLlFailed now p) (D.Good a) := by
  unfold rtLlFailed
  split
  · rename_i numForwards daddr body towards
    cases found : a.rtLookup daddr with
    | none => exact .idle kept
    | some rt =>
      refine .ite (fun _ => localRtRepair_yields kept found (by rw [body]; rfl)) fun near => ?_
      exact .mono (nbDelete_yields kept fun claimed => up claimed numForwards daddr rt body towards found near)
        fun _ failed => failed.good
  · exact .idle kept

theorem localRepairTimeout_good (kept : D.Kept a)
    (givesUp : ∀ rt, a.rtLookup d = some rt → rt.flags ≠ .up → D.GiveUp rt) : D.Good a (a.localRepairTimeout d, []) := by
  unfold localRepairTimeout
  cases found : a.rtLookup d with
  | none => exact .idle kept
  | some rt =>
    dsimp only
    split_ifs with flags
    · obtain ⟨entry, le⟩ := D.givenUp rt (kept.entry found) (givesUp rt found flags)
      exact .rtSet kept (by rwa [rtDown_dst, rtLookup_dst found]) entry le
    · exact .idle kept

end LinkFailure

section Data

theorem rtResolve_yields (kept : D.Kept a) (daddr : p.daddr = some d) (data : p.body.isData = true) :
    Yields strict (a.rtResolve now d p) (D.Good a) := by
  unfold rtResolve
  have looked := Good.rtFind kept d
  have found := rtLookup_rtFind a d
  generalize a.rtFind d = entry at looked found
  obtain ⟨b, rt⟩ := entry
  have here := rtLookup_dst found
  dsimp only at looked found here ⊢
  rw [here]
  refine .ite (fun up => ?_) fun _ => .ite (fun _ => ?_) fun _ => .ite (fun _ => ?_) fun repaired => ?_
  · refine .of_asserting (fun _ => D.finite rt (looked.kept.entry found) up) fun _ => ?_
    have known : p.daddr ≠ none := by
      rw [daddr]
      exact Option.some_ne_none d
    refine .mono (forward_to looked.kept (fun _ => ⟨⟨rt, found, up⟩, known⟩) fun _ => sends_data data) ?_
    rintro ⟨c, out⟩ forwarded
    exact looked.trans forwarded.good
  · have queued := enque_good looked.kept now data
    refine .mono (sendRequest_yields queued.good.kept found) ?_
    rintro ⟨c, out⟩ sent
    exact looked.trans (queued.good.trans sent)
  · exact looked.trans (enque_good looked.kept now data).good
  · have down : rt.flags = .down := by
      cases flags : rt.flags with
      | down => rfl
      | up => contradiction
      | inRepair => contradiction
    refine .of_asserting (fun _ => down) fun _ => ?_
    refine looked.trans (Good.of_eq looked.kept looked.kept.seqno rfl rfl looked.kept.queued (sends_error fun lost member => ?_))
    cases List.mem_singleton.mp member
    exact (D.lost rt (looked.kept.entry found) down).2

theorem recvData_yields {numForwards : ℤ} (kept : D.Kept a) (data : p.body.isData = true) :
    Yields strict (a.recvData now p numForwards) (D.Good a) := by
  have resolve (p' : AodvPacket) (data' : p'.body.isData = true) (routed : Option (AODV × List AodvPacket))
      (known : ∀ d, p'.daddr = some d → routed = a.rtResolve now d p')
      (broadcast : p'.daddr = none → routed = a.forward now none p') : Yields strict routed (D.Good a) := by
    cases daddr : p'.daddr with
    | none => exact broadcast daddr ▸ .mono (forward_on kept daddr fun _ => sends_data data') fun _ forwarded => forwarded.good
    | some d => exact known d daddr ▸ rtResolve_yields kept daddr data'
  unfold recvData
  refine .ite (fun _ => .ite (fun _ => ?_) fun _ => .idle kept) fun _ => .ite (fun _ => .idle kept) fun _ => ?_
  · refine resolve (if p.daddr = none then p else { p with ttl := 30 }) ?_ _ (fun d daddr => ?_) fun daddr => ?_
    · split_ifs <;> exact data
    · simp only [daddr]
    · simp only [daddr]
  · refine resolve { p with ttl := p.ttl - 1 } data _ (fun d daddr => ?_) fun daddr => ?_
    · simp only [show p.daddr = some d from daddr]
    · simp only [show p.daddr = none from daddr]

theorem purgeEntry_yields (kept : D.Kept a) (found : strict → ∃ rt, a.rtLookup d = some rt) :
    Yields strict (a.purgeEntry now d) (D.Good a) := by
  refine .bind (.of_exists found) fun rt found => ?_
  have entry := kept.entry found
  refine .ite (fun expired => ?_) fun _ => .ite (fun up => ?_) fun _ => .ite (fun _ => sendRequest_yields kept found) fun _ => .idle kept
  · have finite := D.finite rt entry expired.1
    have valid := D.valid rt entry finite
    refine .of_asserting (fun _ => finite) fun _ => .of_asserting (fun _ => ?_) fun _ => ?_
    · have next : rt.raise.seqno = (rt.seqno + 1) % 2 ^ 32 := rfl
      have even := valid.even
      have small := valid.small
      omega
    · obtain ⟨down, le, _⟩ := D.failed rt entry expired.1
      have dropped := dequeAll_kept kept now d
      refine dropped.good.trans (.rtSet dropped.good.kept ?_ down le)
      rw [rtDown_dst]
      exact (rtLookup_dst found).symm ▸ found
  · refine .of_asserting (fun _ => D.finite rt entry up) fun _ => ?_
    exact .mono (flush_yields kept fun _ => ⟨rt, found, up⟩) fun _ forwarded => forwarded.good

theorem purgeEntries_yields {ds : List ℕ} (kept : D.Kept a) (found : strict → ∀ d ∈ ds, ∃ rt, a.rtLookup d = some rt) :
    Yields strict (a.purgeEntries now ds) (D.Good a) := by
  induction ds generalizing a with
  | nil => exact .idle kept
  | cons d rest ih =>
    refine .bind (purgeEntry_yields kept fun claimed => found claimed d List.mem_cons_self) ?_
    rintro ⟨b, out⟩ good
    refine .bind (ih good.kept fun claimed d' member => ?_) ?_
    · obtain ⟨rt, before⟩ := found claimed d' (List.mem_cons_of_mem d member)
      obtain ⟨rt', after, _⟩ := good.onward.entries d' rt before
      exact ⟨rt', after⟩
    · rintro ⟨c, out'⟩ later
      exact Yields.some (good.trans later)

theorem rtPurge_yields (kept : D.Kept a) : Yields strict (a.rtPurge now) (D.Good a) := by
  refine purgeEntries_yields kept fun _ d member => ?_
  obtain ⟨rt, inside, same⟩ := List.mem_map.mp member
  refine Option.isSome_iff_exists.mp (List.find?_isSome.mpr ⟨rt, inside, decide_eq_true same⟩)

end Data

end AodvDiscipline

end Ns2
