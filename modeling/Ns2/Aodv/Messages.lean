import Ns2.Aodv.Routines

namespace Ns2

open AODV

namespace AodvDiscipline

variable {D : AodvDiscipline} {strict : Prop} {a b : AODV} {p : AodvPacket} {rt old : AodvRtEntry} {out : List AodvPacket}
  {now : ℚ} {d : ℕ} {rq : AodvRequest} {rp : AodvReply}

/-- A route request that may be received. -/
structure Asked (p : AodvPacket) (rq : AodvRequest) : Prop where
  ttl : 0 ≤ p.ttl
  hops : rq.hopCount + p.ttl ≤ 30
  seqno : ValidSeqno rq.srcSeqno

/-- A route reply that may be received. -/
structure Replied (D : AodvDiscipline) (rp : AodvReply) : Prop where
  hops : rp.hopCount < aodvInfinity
  seqno : ValidSeqno rp.dstSeqno
  learn : D.Learn rp.dst rp.dstSeqno rp.hopCount rp.src

theorem pcInsert_same (rt : AodvRtEntry) (id : ℕ) : SameRoute rt (rt.pcInsert id) := by
  unfold AodvRtEntry.pcInsert
  split_ifs <;> exact ⟨rfl, rfl, rfl, rfl, rfl⟩

theorem found_onward (onward : D.Onward a b) (found : a.rtLookup d = some rt) : ∃ rt', b.rtLookup d = some rt' := by
  obtain ⟨rt', found', _⟩ := onward.entries d rt found
  exact ⟨rt', found'⟩

theorem offers_of_not_better {seqno hopCount : ℕ} (found : a.rtLookup d = some rt) (worse : ¬isBetter rt seqno hopCount) :
    D.Offers a d seqno (hopCount + 1) := by
  refine Or.inr ⟨rt, found, D.backs rt seqno (hopCount + 1) ?_⟩
  unfold isBetter at worse
  omega

/-- An entry that has taken a route, with changes that leave it the route. -/
theorem taken_good {seqno hopCount nexthop : ℕ} {expire : ℚ} (kept : D.Kept a) (found : a.rtLookup d = some old)
    (learn : D.Learn d seqno hopCount nexthop) (better : isBetter old seqno hopCount)
    (same : SameRoute (old.rtUpdate seqno hopCount nexthop expire) rt) : D.Good a (a.rtSet rt, []) := by
  have here := rtLookup_dst found
  have dst : rt.dst = d := same.dst.trans here
  obtain ⟨entry, le⟩ := D.learned old seqno hopCount nexthop expire (kept.entry found) (here.symm ▸ learn) better
  obtain ⟨entry', le'⟩ := D.same _ rt same entry
  exact .rtSet kept (dst.symm ▸ found) entry' (D.trans old _ rt le le')

theorem taken_lookup (found : a.rtLookup d = some old) (dst : rt.dst = d) : (a.rtSet rt).rtLookup d = some rt := by
  rw [rtLookup_rtSet, if_pos dst.symm, found, Option.map_some]

section Request

/-- What the reverse route brings: a route to the source of the request, as good as the request says. -/
structure Reversed (D : AodvDiscipline) (a : AODV) (rq : AodvRequest) (result : AODV × List AodvPacket) : Prop where
  good : D.Good a result
  offers : D.Offers result.1 rq.src rq.srcSeqno (rq.hopCount + 1)
  found : ∃ rt, result.1.rtLookup rq.src = some rt

theorem reverseRoute_yields {saddr : ℕ} (kept : D.Kept a)
    (learn : isBetter (a.rtFind rq.src).2 rq.srcSeqno rq.hopCount → D.Learn rq.src rq.srcSeqno rq.hopCount saddr)
    (hops : rq.hopCount < aodvInfinity) : Yields strict (a.reverseRoute now saddr rq) (D.Reversed a rq) := by
  unfold reverseRoute
  have looked := Good.rtFind kept rq.src
  have found := rtLookup_rtFind a rq.src
  generalize a.rtFind rq.src = entry at looked found learn
  obtain ⟨b, rt0⟩ := entry
  dsimp only at looked found learn ⊢
  have here := rtLookup_dst found
  refine .ite (fun better => ?_) fun worse => ?_
  · generalize taken : (if (_ : ℚ) > _ then _ else _ : AodvRtEntry) = rt
    have same : SameRoute (rt0.rtUpdate rq.srcSeqno rq.hopCount saddr 0) rt := by
      subst taken
      split_ifs <;> exact ⟨rfl, rfl, rfl, rfl, rfl⟩
    have dst : rt.dst = rq.src := same.dst.trans here
    have flags : rt.flags = .up := same.flags
    have finite : rt.hops ≠ aodvInfinity := by
      rw [same.hops]
      exact Nat.ne_of_lt hops
    have changed : D.Good b (b.rtSet rt, []) := taken_good looked.kept found (learn better) better same
    have lookup := taken_lookup found dst
    refine .of_asserting (fun _ => flags) fun _ => .of_asserting (fun _ => Or.inr finite) fun _ => ?_
    refine .mono (flush_yields changed.kept fun _ => ⟨rt, lookup, flags⟩) ?_
    rintro ⟨c, out⟩ forwarded
    obtain ⟨rt', found', same'⟩ := forwarded.steady.onward lookup
    refine ⟨looked.trans (changed.trans forwarded.good), Or.inr ⟨rt', found', D.backs rt' _ _ (Or.inr ⟨?_, ?_⟩)⟩, rt', found'⟩
    · exact (same'.seqno.trans same.seqno).symm
    · rw [same'.hops, same.hops]
      exact Nat.lt_succ_self rq.hopCount
  · have same : SameRoute rt0 { rt0 with expire := max rt0.expire (now + 6) } := ⟨rfl, rfl, rfl, rfl, rfl⟩
    have lookup := taken_lookup found (same.dst.trans here)
    exact ⟨looked.trans (.rtSet_same looked.kept found same), offers_of_not_better lookup worse, _, lookup⟩

theorem validSeqno_answer {seqno dstSeqno : ℕ} : ValidSeqno (answerSeqno seqno dstSeqno) := by
  unfold answerSeqno
  dsimp only
  constructor <;> split_ifs <;> omega

theorem sendReply_yields {ipdst hopCount rpdst rpseq : ℕ} {lifetime timestamp : ℚ}
    (known : ∃ rt, a.rtLookup ipdst = some rt) (hops : hopCount ≤ aodvInfinity) (seqno : ValidSeqno rpseq)
    (offers : D.Offers a rpdst rpseq hopCount) :
    Yields strict (a.sendReply ipdst hopCount rpdst rpseq lifetime timestamp) fun sent => ∀ p ∈ sent, D.Sends a p := by
  refine .bind (.of_exists fun _ => known) fun rt _ => Yields.some fun p member => ?_
  cases List.mem_singleton.mp member
  have small : hopCount % 2 ^ 8 = hopCount := Nat.mod_eq_of_lt (Nat.lt_succ_of_le hops)
  refine ⟨rfl, Option.some_ne_none ipdst, ?_, seqno, ?_⟩
  · exact small.symm ▸ hops
  · exact small.symm ▸ offers

/-- A request that is passed on. -/
theorem sends_request {p' : AodvPacket} {rq' : AodvRequest} (asked : Asked p rq) (offers : D.Offers a rq.src rq.srcSeqno (rq.hopCount + 1))
    (alive : p'.ttl ≠ 0) (ttl : p'.ttl = p.ttl) (saddr : p'.saddr = a.index) (body : p'.body = .request rq')
    (src : rq'.src = rq.src) (seqno : rq'.srcSeqno = rq.srcSeqno) (hopCount : rq'.hopCount = (rq.hopCount + 1) % 2 ^ 8) :
    D.Sends a p' := by
  have positive := asked.ttl
  have bound := asked.hops
  have small : rq'.hopCount = rq.hopCount + 1 := by omega
  unfold Sends
  rw [body]
  refine ⟨saddr, by omega, by omega, seqno ▸ asked.seqno, ?_⟩
  rw [src, seqno, small]
  exact offers

theorem answerRequest_yields (kept : D.Kept a) (asked : Asked p rq) (offers : D.Offers a rq.src rq.srcSeqno (rq.hopCount + 1))
    (known : ∃ rt, a.rtLookup rq.src = some rt) : Yields strict (a.answerRequest now p rq) (D.Good a) := by
  unfold answerRequest
  refine .ite (fun _ => ?_) fun _ => ?_
  · have valid : ValidSeqno (answerSeqno a.seqno rq.dstSeqno) := validSeqno_answer
    refine .map (sendReply_yields known (by decide) valid (Or.inl rfl : D.Offers _ a.index _ 1)) fun sent sends => ?_
    exact .of_eq kept valid rfl rfl kept.queued sends
  · cases found : a.rtLookup rq.dst with
    | none =>
      dsimp only
      refine .mono (forward_on kept rfl fun alive => ?_) fun _ forwarded => forwarded.good
      exact sends_request asked offers alive rfl rfl rfl rfl rfl rfl
    | some rt =>
      refine .ite (fun knows => ?_) fun _ => ?_
      · have entry := kept.entry found
        have bound := D.small rt entry
        have hops := knows.1
        refine .bind (sendReply_yields known (by omega) (D.valid rt entry knows.1)
          (Or.inr ⟨rt, found, D.backs rt rt.seqno (rt.hops + 1) (Or.inr ⟨rfl, Nat.lt_succ_self _⟩)⟩)) fun sent sends => ?_
        refine .bind (.of_exists fun _ => known) fun rt0 found0 => ?_
        have changed : D.Good a (a.rtSet (rt.pcInsert rt0.nexthop), []) := .rtSet_same kept found (pcInsert_same rt rt0.nexthop)
        refine .bind (.of_exists fun _ => found_onward changed.onward found) fun rt' _ => ?_
        refine .bind (.of_exists fun _ => found_onward changed.onward found0) fun rt0' found0' => Yields.some ?_
        have again : D.Good _ (_, []) := .rtSet_same changed.kept found0' (pcInsert_same rt0' rt'.nexthop)
        have both := changed.trans again
        exact ⟨both.kept, both.onward, fun p member => (sends p member).onward both.onward⟩
      · refine .mono (forward_on kept rfl fun alive => ?_) fun _ forwarded => forwarded.good
        exact sends_request asked offers alive rfl rfl rfl rfl rfl rfl

theorem rtFind_idInsert (a : AODV) (now : ℚ) (id bid d : ℕ) : ((a.idInsert now id bid).rtFind d).2 = (a.rtFind d).2 := by
  have same : (a.idInsert now id bid).rtLookup d = a.rtLookup d := rfl
  unfold rtFind
  rw [same]
  cases a.rtLookup d <;> rfl

theorem recvRequest_yields (kept : D.Kept a) (asked : rq.src ≠ a.index → Asked p rq)
    (learn : rq.src ≠ a.index → isBetter (a.rtFind rq.src).2 rq.srcSeqno rq.hopCount →
      D.Learn rq.src rq.srcSeqno rq.hopCount p.saddr) : Yields strict (a.recvRequest now p rq) (D.Good a) := by
  unfold recvRequest
  refine .ite (fun _ => .idle kept) fun other => .ite (fun _ => .idle kept) fun _ => ?_
  have fits := asked other
  have noted : D.Good a (a.idInsert now rq.src rq.bcastId, []) := .of_eq kept kept.seqno rfl rfl kept.queued (by simp)
  have bound := fits.hops
  have positive := fits.ttl
  have finite : rq.hopCount < aodvInfinity := by
    unfold aodvInfinity
    omega
  refine .bind (reverseRoute_yields noted.kept (by rw [rtFind_idInsert]; exact learn other) finite) ?_
  rintro ⟨b, out⟩ reversed
  refine .bind (answerRequest_yields reversed.good.kept fits reversed.offers reversed.found) ?_
  rintro ⟨c, out'⟩ answered
  exact Yields.some (noted.trans (reversed.good.trans answered))

end Request

section Reply

theorem passReply_yields (kept : D.Kept a) (replied : D.Replied rp) (offers : D.Offers a rp.dst rp.dstSeqno (rp.hopCount + 1))
    (known : ∃ rt, a.rtLookup rp.dst = some rt)
    (up : strict → ∀ d rt, p.daddr = some d → a.rtLookup d = some rt → rt.hops ≠ aodvInfinity → rt.flags = .up) :
    Yields strict (a.passReply now p rp) (D.Good a) := by
  unfold passReply
  cases daddr : p.daddr with
  | none => exact .idle kept
  | some d =>
    rw [Option.bind_some]
    cases found : a.rtLookup d with
    | none => exact .idle kept
    | some rt0 =>
      refine .ite (fun finite => .of_asserting (fun claimed => up claimed d rt0 daddr found finite) fun flags => ?_)
        fun _ => .idle kept
      · have less := replied.hops
        have small : (rp.hopCount + 1) % 2 ^ 8 = rp.hopCount + 1 := Nat.mod_eq_of_lt (by unfold aodvInfinity at less; omega)
        have forwarding : Yields strict (a.forward now (some d)
            { p with daddr := some d, body := .reply { rp with hopCount := (rp.hopCount + 1) % 2 ^ 8, src := a.index } })
            (D.Forwarded a) :=
          forward_to kept (fun _ => ⟨⟨rt0, found, flags⟩, Option.some_ne_none d⟩) fun _ =>
            ⟨rfl, Option.some_ne_none d, small.symm ▸ less, replied.seqno, small.symm ▸ offers⟩
        refine .bind forwarding ?_
        rintro ⟨b, sent⟩ forwarded
        obtain ⟨rt, found'⟩ := known
        refine .bind (.of_exists fun _ => found_onward forwarded.good.onward found') fun rt' lookup => Yields.some ?_
        have marked : D.Good b (b.rtSet (rt'.pcInsert rt0.nexthop), []) :=
          .rtSet_same forwarded.good.kept lookup (pcInsert_same rt' rt0.nexthop)
        exact ⟨marked.kept, forwarded.good.onward.trans marked.onward, fun q member =>
          (forwarded.good.sends q member).onward marked.onward⟩

theorem recvReply_yields (kept : D.Kept a) (replied : isBetter (a.rtFind rp.dst).2 rp.dstSeqno rp.hopCount → D.Replied rp)
    (up : strict → isBetter (a.rtFind rp.dst).2 rp.dstSeqno rp.hopCount → ∀ d rt, p.daddr = some d → d ≠ a.index → d ≠ rp.dst →
      a.rtLookup d = some rt → rt.hops ≠ aodvInfinity → rt.flags = .up) :
    Yields strict (a.recvReply now p rp) (D.Good a) := by
  unfold recvReply
  have looked := Good.rtFind kept rp.dst
  have found := rtLookup_rtFind a rp.dst
  have others := rtLookup_rtFind_ne a rp.dst
  generalize a.rtFind rp.dst = entry at looked found others replied up
  obtain ⟨b, old⟩ := entry
  dsimp only at looked found others replied up ⊢
  have here := rtLookup_dst found
  refine .ite (fun better => ?_) fun _ => looked
  have replied := replied better
  generalize taken : (if p.daddr = some b.index then _ else _ : AodvRtEntry) = rt
  have same : SameRoute (old.rtUpdate rp.dstSeqno rp.hopCount rp.src (now + rp.lifetime)) rt := by
    subst taken
    split_ifs <;> exact ⟨rfl, rfl, rfl, rfl, rfl⟩
  have dst : rt.dst = rp.dst := same.dst.trans here
  have flags : rt.flags = .up := same.flags
  have changed : D.Good b (b.rtSet rt, []) := taken_good looked.kept found replied.learn better same
  have lookup := taken_lookup found dst
  have offers : D.Offers (b.rtSet rt) rp.dst rp.dstSeqno (rp.hopCount + 1) :=
    Or.inr ⟨rt, lookup, D.backs rt _ _ (Or.inr ⟨same.seqno.symm, by rw [same.hops]; exact Nat.lt_succ_self _⟩)⟩
  have finish : ∀ result, D.Forwarded (b.rtSet rt) result → Yields strict
      (if p.daddr = some result.1.index then some result
        else do
          let others ← result.1.passReply now p rp
          return (others.1, result.2 ++ others.2)) (D.Good a) := by
    rintro ⟨c, out⟩ forwarded
    have before : D.Good a (c, out) := looked.trans (changed.trans forwarded.good)
    refine .ite (fun _ => before) fun away => ?_
    refine .bind (passReply_yields forwarded.good.kept replied (offers.onward forwarded.good.onward)
      (found_onward forwarded.good.onward lookup) fun claimed d rt' daddr found' finite => ?_) ?_
    · obtain ⟨mid, found'', same'⟩ := forwarded.steady.back found'
      rw [rtLookup_rtSet] at found''
      split_ifs at found'' with towards
      · rw [towards, dst, found] at found''
        cases Option.some.inj found''
        exact same'.flags.trans flags
      · have elsewhere : d ≠ rp.dst := fun equal => towards (equal.trans dst.symm)
        have remote : d ≠ a.index := fun equal =>
          away (daddr.trans (congrArg some (equal.trans before.onward.index.symm)))
        exact same'.flags.trans
          (up claimed better d mid daddr remote elsewhere (others d elsewhere ▸ found'') (same'.hops ▸ finite))
    · rintro ⟨e, out'⟩ passed
      exact Yields.some (before.trans passed)
  exact .ite (fun _ => .bind (.of_asserting (fun _ => flags) fun _ => flush_yields changed.kept fun _ => ⟨rt, lookup, flags⟩) finish)
    fun _ => .bind (Yields.some (dequeAll_kept changed.kept now rp.dst)) finish

end Reply

section Error

/-- The route in the entry is one that a route error from a neighbor takes down. -/
def losesRoute (saddr seqno : ℕ) (rt : AodvRtEntry) : Prop := rt.hops ≠ aodvInfinity ∧ rt.nexthop = saddr ∧ rt.seqno ≤ seqno

instance (saddr seqno : ℕ) (rt : AodvRtEntry) : Decidable (losesRoute saddr seqno rt) := inferInstanceAs (Decidable (_ ∧ _))

/-- A route that the error takes down is valid. -/
def ErrorUp (a : AODV) (saddr : ℕ) (lost : ℕ × ℕ) : Prop :=
  ∀ rt, a.rtLookup lost.1 = some rt → losesRoute saddr lost.2 rt → rt.flags = .up

/-- What a route error leaves, with the destinations to report. -/
structure Reported (D : AodvDiscipline) (saddr : ℕ) (a : AODV) (result : AODV × List (ℕ × ℕ)) : Prop where
  good : D.Good a (result.1, [])
  errs : ∀ lost ∈ result.2, D.Err lost.2
  errorUp : ∀ lost, ErrorUp a saddr lost → ErrorUp result.1 saddr lost

theorem errorEntry_yields {saddr dst seqno : ℕ} (kept : D.Kept a) (err : D.Err seqno) (up : strict → ErrorUp a saddr (dst, seqno)) :
    Yields strict (a.errorEntry saddr dst seqno) (D.Reported saddr a) := by
  unfold errorEntry
  have idle : D.Reported saddr a (a, []) := ⟨.idle kept, by simp, fun _ held => held⟩
  cases found : a.rtLookup dst with
  | none => exact idle
  | some rt =>
    refine .ite (fun loses => ?_) fun _ => idle
    have entry := kept.entry found
    refine .of_asserting (fun claimed => up claimed rt found loses) fun flags => ?_
    refine .of_asserting (fun _ => (D.valid rt entry loses.1).even) fun _ => ?_
    obtain ⟨down, le⟩ := D.reported rt seqno entry err flags loses.2.2
    have here := rtLookup_dst found
    have raised : { rt with seqno := seqno }.flags = .up := flags
    have down_hops := rtDown_hops raised
    have down_dst := (rtDown_dst { rt with seqno := seqno }).trans here
    have down_seqno : { rt with seqno := seqno }.rtDown.seqno = seqno := by
      unfold AodvRtEntry.rtDown
      split_ifs <;> rfl
    generalize { rt with seqno := seqno }.rtDown = fallen at down le down_hops down_dst down_seqno
    have errorUp (new : AodvRtEntry) (dst' : new.dst = dst) (hops : new.hops = aodvInfinity) (lost : ℕ × ℕ)
        (held : ErrorUp a saddr lost) : ErrorUp (a.rtSet new) saddr lost := by
      intro rt' found' loses'
      rw [rtLookup_rtSet] at found'
      split_ifs at found' with towards
      · obtain ⟨_, _, same⟩ := Option.map_eq_some_iff.mp found'
        subst same
        exact absurd hops loses'.1
      · exact held rt' found' loses'
    refine .ite (fun _ => ?_) fun _ => ?_
    · have same : SameRoute fallen { fallen with pclist := [] } := ⟨rfl, rfl, rfl, rfl, rfl⟩
      obtain ⟨down', le'⟩ := D.same fallen _ same down
      refine ⟨.rtSet kept (down_dst.symm ▸ found) down' (D.trans rt fallen _ le le'), fun lost member => ?_,
        errorUp _ down_dst down_hops⟩
      cases List.mem_singleton.mp member
      exact down_seqno.symm ▸ err
    · exact ⟨.rtSet kept (down_dst.symm ▸ found) down le, by simp, errorUp fallen down_dst down_hops⟩

theorem errorEntries_yields {saddr : ℕ} {unreachable : List (ℕ × ℕ)} (kept : D.Kept a) (errs : ∀ lost ∈ unreachable, D.Err lost.2)
    (up : strict → ∀ lost ∈ unreachable, ErrorUp a saddr lost) : Yields strict (a.errorEntries saddr unreachable) (D.Reported saddr a) := by
  induction unreachable generalizing a with
  | nil => exact ⟨.idle kept, by simp, fun _ held => held⟩
  | cons lost rest ih =>
    obtain ⟨err, others⟩ := List.forall_mem_cons.mp errs
    refine .bind (errorEntry_yields kept err fun claimed => up claimed lost List.mem_cons_self) ?_
    rintro ⟨b, report⟩ first
    refine .bind (ih first.good.kept others fun claimed lost' member =>
      first.errorUp lost' (up claimed lost' (List.mem_cons_of_mem lost member))) ?_
    rintro ⟨c, report'⟩ later
    refine Yields.some ⟨first.good.trans later.good, fun lost' member => ?_, fun lost' held => later.errorUp lost' (first.errorUp lost' held)⟩
    exact (List.mem_append.mp member).elim (first.errs lost') (later.errs lost')

theorem recvError_yields {saddr : ℕ} {unreachable : List (ℕ × ℕ)} (kept : D.Kept a) (errs : ∀ lost ∈ unreachable, D.Err lost.2)
    (up : strict → ∀ lost ∈ unreachable, ErrorUp a saddr lost) : Yields strict (a.recvError saddr unreachable) (D.Good a) := by
  refine .map (errorEntries_yields kept errs up) ?_
  rintro ⟨b, report⟩ reported
  refine ⟨reported.good.kept, reported.good.onward, fun p member => ?_⟩
  dsimp only at member
  split_ifs at member
  · cases member
  · exact sends_error reported.errs p member

end Error

end AodvDiscipline

end Ns2
