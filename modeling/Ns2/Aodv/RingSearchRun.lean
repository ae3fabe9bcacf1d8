import Mathlib.Algebra.Order.BigOperators.Group.List
import Ns2.Aodv.RingSearchOutcome

namespace Ns2

open AODV AodvDiscipline

variable {a b m : AODV} {rt old : AodvRtEntry} {p : AodvPacket} {ps out out' : List AodvPacket} {now : ℚ} {d dst saddr : ℕ} {rq : AodvRequest}
  {rp : AodvReply} {result : AODV × List AodvPacket}

namespace AODV

section Packets

theorem forward_quiet {towards : Option ℕ} (d : ℕ) (silent : ∀ q : AodvPacket, q.body = p.body → ownTtl a.index d q = none) :
    Yields False (a.forward now towards p) (Quiet d a) := by
  have sent (result : AODV × List AodvPacket) (bodies : ∀ q ∈ result.2, q.body = p.body) : result.2.filterMap (ownTtl a.index d) = [] :=
    List.filterMap_eq_nil_iff.mpr fun q member => silent q (bodies q member)
  cases towards with
  | some dst => exact .mono (both forward_touched forward_body) fun result held => held.1.quiet (sent result held.2)
  | none =>
    unfold forward
    refine .ite (fun _ => .idle d a) fun _ => .ite (fun _ => .idle d a) fun _ => .of_asserting False.elim fun _ => .of_rtable rfl rfl ?_
    exact sent (a, _) fun q member => List.mem_singleton.mp member ▸ rfl

theorem forward_data (data : p.body.isData = true) {towards : Option ℕ} : Yields False (a.forward now towards p) (Quiet d a) :=
  forward_quiet d fun _ body => ownTtl_data (body ▸ data) _ _

theorem rtResolve_outcome (data : p.body.isData = true) (d : ℕ) : Yields False (a.rtResolve now dst p) (Outcome now d a) := by
  have looked := Quiet.rtFind a d dst
  unfold rtResolve
  generalize a.rtFind dst = entry at looked
  obtain ⟨m, rt⟩ := entry
  have queued : Quiet d m (m.enque now p, []) := .of_rtable rfl rfl rfl
  refine .ite (fun _ => .of_asserting False.elim fun _ => ?_) fun _ => .ite (fun _ => ?_) fun _ => .ite (fun _ => ?_) fun _ => ?_
  · exact .mono (forward_data data) fun _ quiet => .quiet (looked.trans quiet)
  · exact .mono (sendRequest_outcome d) fun _ outcome => (looked.trans queued).followed outcome
  · exact Outcome.quiet (looked.trans queued)
  · exact .of_asserting False.elim fun _ => .quiet (looked.trans (.of_rtable rfl rfl rfl))

theorem recvData_outcome {numForwards : ℤ} (data : p.body.isData = true) (d : ℕ) :
    Yields False (a.recvData now p numForwards) (Outcome now d a) := by
  unfold recvData
  refine .ite (fun _ => .ite (fun _ => ?_) fun _ => Outcome.quiet (.idle d a)) fun _ => .ite (fun _ => Outcome.quiet (.idle d a)) fun _ => ?_
  · generalize made : (if p.daddr = none then p else { p with ttl := 30 }) = p'
    have data' : p'.body.isData = true := by
      rw [← made]
      split_ifs <;> exact data
    dsimp only
    split
    · exact rtResolve_outcome data' d
    · exact .mono (forward_data data') fun _ quiet => .quiet quiet
  · dsimp only
    have data' : ({ p with ttl := p.ttl - 1 } : AodvPacket).body.isData = true := data
    split
    · exact rtResolve_outcome data' d
    · exact .mono (forward_data data') fun _ quiet => .quiet quiet

theorem alike_pcInsert (rt : AodvRtEntry) (id : ℕ) : Alike rt (rt.pcInsert id) := by
  unfold AodvRtEntry.pcInsert
  split_ifs <;> exact ⟨⟨rfl, rfl, rfl, rfl, rfl⟩, rfl, Iff.rfl⟩

theorem pcInsert_dst (rt : AodvRtEntry) (id : ℕ) : (rt.pcInsert id).dst = rt.dst := (pcInsert_same rt id).dst

theorem pcInsert_quiet (found : a.rtLookup dst = some rt) (id d : ℕ) : Quiet d a (a.rtSet (rt.pcInsert id), []) :=
  .rtSet (rt.pcInsert id) found ((pcInsert_dst rt id).trans (rtLookup_dst found)) fun _ => alike_pcInsert rt id

theorem sendReply_silent {ipdst hopCount rpdst rpseq : ℕ} {lifetime timestamp : ℚ} (i d : ℕ) :
    Yields False (a.sendReply ipdst hopCount rpdst rpseq lifetime timestamp) fun sent => sent.filterMap (ownTtl i d) = [] :=
  .bind (.of_exists False.elim) fun _ _ => (rfl : List.filterMap (ownTtl i d) [_] = [])

theorem answerRequest_quiet (other : rq.src ≠ a.index) (d : ℕ) : Yields False (a.answerRequest now p rq) (Quiet d a) := by
  have passed (p' : AodvPacket) (rq' : AodvRequest) (src : rq'.src = rq.src) (body : p'.body = .request rq') :
      Yields False (a.forward now none p') (Quiet d a) := by
    refine forward_quiet d fun q same => ?_
    unfold ownTtl
    rw [same.trans body]
    exact if_neg fun own => other (src.symm.trans own.1)
  unfold answerRequest
  refine .ite (fun _ => ?_) fun _ => ?_
  · exact .map (sendReply_silent a.index d) fun _ silent => .of_rtable rfl rfl silent
  · cases found : a.rtLookup rq.dst with
    | none => exact passed _ { rq with hopCount := (rq.hopCount + 1) % 2 ^ 8 } rfl rfl
    | some rt =>
      refine .ite (fun _ => ?_) fun _ => passed _ { rq with hopCount := (rq.hopCount + 1) % 2 ^ 8, dstSeqno := max rt.seqno rq.dstSeqno } rfl rfl
      refine .bind (sendReply_silent a.index d) fun sent silent => .bind (.of_exists False.elim) fun rt0 _ => ?_
      have noted := pcInsert_quiet found rt0.nexthop d
      refine .bind (.of_exists False.elim) fun rt' _ => .bind (.of_exists False.elim) fun rt0' found0 => ?_
      have again := pcInsert_quiet found0 rt'.nexthop d
      have whole := noted.trans again
      exact ⟨whole.index, whole.alike, silent⟩

theorem passReply_quiet (d : ℕ) : Yields False (a.passReply now p rp) (Quiet d a) := by
  unfold passReply
  cases p.daddr.bind a.rtLookup with
  | none => exact Quiet.idle d a
  | some rt0 =>
    refine .ite (fun _ => .of_asserting False.elim fun _ => ?_) fun _ => Quiet.idle d a
    refine .bind (forward_quiet d fun q body => ?_) ?_
    · unfold ownTtl
      rw [body]
    · rintro ⟨m, sent⟩ forwarded
      refine .bind (.of_exists False.elim) fun rt found => ?_
      have whole := forwarded.trans (pcInsert_quiet found rt0.nexthop d)
      rw [List.append_nil] at whole
      exact whole

end Packets

section News

/-- The entry that the reverse route makes. -/
theorem Reversed.entry (reverse : Reversed a now saddr rq b) :
    ∃ expire, b.entry rq.src = { reversed (a.entry rq.src) now saddr rq with expire := expire } := by
  obtain ⟨expire, found, _⟩ := reverse.here
  exact ⟨expire, entry_found found⟩

theorem Reversed.quiet (reverse : Reversed a now saddr rq b) (worse : ¬(rq.src = d ∧ isBetter (a.entry d) rq.srcSeqno rq.hopCount))
    (silent : out.filterMap (ownTtl a.index d) = []) : Quiet d a (b, out) := by
  by_cases here : rq.src = d
  · subst here
    obtain ⟨expire, after⟩ := reverse.entry
    rw [reversed_worse _ fun better => worse ⟨rfl, better⟩] at after
    refine ⟨reverse.index, ?_, silent⟩
    rw [show (b, out).1.entry rq.src = _ from after]
    exact ⟨⟨rfl, rfl, rfl, rfl, rfl⟩, rfl, Iff.rfl⟩
  · exact .of_lookup reverse.index (reverse.others d fun same => here same.symm) silent

theorem reversed_better {rt0 : AodvRtEntry} (better : isBetter rt0 rq.srcSeqno rq.hopCount) :
    reversed rt0 now saddr rq = if rt0.reqTimeout > 0 then
      { rt0.rtUpdate rq.srcSeqno rq.hopCount saddr (now + 10) with reqCnt := 0, reqTimeout := 0, reqLastTtl := rq.hopCount }
    else rt0.rtUpdate rq.srcSeqno rq.hopCount saddr (max (max rt0.expire (now + 6)) (now + 6)) := by
  have better' : isBetter { rt0 with expire := max rt0.expire (now + 6) } rq.srcSeqno rq.hopCount := better
  unfold reversed
  dsimp only
  rw [if_pos better']
  rfl

theorem Reversed.kept (reverse : Reversed a now saddr rq b) (better : isBetter (a.entry rq.src) rq.srcSeqno rq.hopCount)
    (calm : (a.entry rq.src).reqTimeout ≤ 0) (silent : out.filterMap (ownTtl a.index rq.src) = []) : Kept rq.src a (b, out) := by
  obtain ⟨expire, after⟩ := reverse.entry
  rw [reversed_better better, if_neg (not_lt.mpr calm)] at after
  refine ⟨reverse.index, ?_, ?_, silent⟩
  · rw [show (b, out).1.entry rq.src = _ from after]
    exact AodvFlags.noConfusion
  · rw [show (b, out).1.entry rq.src = _ from after]
    exact ⟨rfl, rfl, rfl, rfl, rfl⟩

theorem Reversed.renewed (reverse : Reversed a now saddr rq b) (better : isBetter (a.entry rq.src) rq.srcSeqno rq.hopCount)
    (waits : (a.entry rq.src).reqTimeout > 0) (silent : out.filterMap (ownTtl a.index rq.src) = []) :
    Renewed rq.src rq.hopCount a (b, out) := by
  obtain ⟨expire, after⟩ := reverse.entry
  rw [reversed_better better, if_pos waits] at after
  have entry : (b, out).1.entry rq.src = _ := after
  refine ⟨reverse.index, ?_, ?_, ?_, ?_, ?_, silent⟩ <;> rw [entry]
  · exact AodvFlags.noConfusion
  · rfl

/-- What an event does about a destination, by the news it brings. -/
inductive Follows (now : ℚ) (d : ℕ) (a : AODV) (event : Event) (result : AODV × List AodvPacket) : Prop
  | outcome (none : a.news d event = none) (outcome : Outcome now d a result)
  | replied (hopCount : ℕ) (news : a.news d event = some (.replied hopCount)) (renewed : Renewed d hopCount a result)
  | heard (hopCount : ℕ) (news : a.news d event = some (.heard hopCount)) (waits : (a.entry d).reqTimeout > 0)
      (renewed : Renewed d hopCount a result)
  | ignored (hopCount : ℕ) (news : a.news d event = some (.heard hopCount)) (calm : (a.entry d).reqTimeout ≤ 0)
      (kept : Kept d a result)

theorem news_request (body : p.body = .request rq) : a.news d (.recv p) =
    if rq.src = d ∧ TakesUp a rq ∧ isBetter (a.entry d) rq.srcSeqno rq.hopCount then some (.heard rq.hopCount) else none := by
  unfold news
  simp only [body]

theorem news_reply (body : p.body = .reply rp) : a.news d (.recv p) =
    if rp.dst = d ∧ isBetter (a.entry d) rp.dstSeqno rp.hopCount then some (.replied rp.hopCount) else none := by
  unfold news
  simp only [body]

theorem recvRequest_follows (tame : a.Tame) (sized : rq.hopCount < 2 ^ 8) (body : p.body = .request rq) (d : ℕ) :
    Yields False (a.recvRequest now { p with ttl := p.ttl - 1 } rq) (Follows now d a (.recv p)) := by
  have nothing (refused : ¬TakesUp a rq) : Follows now d a (.recv p) (a, []) :=
    .outcome ((news_request body).trans (if_neg fun news => refused news.2.1)) (.quiet (.idle d a))
  refine .ite (fun own => nothing fun takes => takes.1 own) fun other => .ite (fun known => nothing fun takes => takes.2 known) fun fresh => ?_
  have noted : (a.idInsert now rq.src rq.bcastId).Tame := tame.of_eq rfl tame.queued
  have same : (a.idInsert now rq.src rq.bcastId).entry d = a.entry d := entry_congr rfl
  refine .bind (both reverseRoute_spec (reverseRoute_data noted sized)) ?_
  rintro ⟨m, out⟩ ⟨reverse, data⟩
  have reverse : Reversed (a.idInsert now rq.src rq.bcastId) now p.saddr rq m := reverse
  have index : m.index = a.index := reverse.index
  have silent : out.filterMap (ownTtl a.index d) = [] := silent_data data a.index d
  have remote : rq.src ≠ m.index := index ▸ other
  refine .bind (answerRequest_quiet remote d) ?_
  rintro ⟨b, out'⟩ answered
  have idle : Quiet d a (a.idInsert now rq.src rq.bcastId, []) := .of_rtable rfl rfl rfl
  by_cases news : rq.src = d ∧ isBetter (a.entry d) rq.srcSeqno rq.hopCount
  · obtain ⟨rfl, better⟩ := news
    have heard : a.news rq.src (.recv p) = some (.heard rq.hopCount) := (news_request body).trans (if_pos ⟨rfl, ⟨other, fresh⟩, better⟩)
    by_cases waits : (a.entry rq.src).reqTimeout > 0
    · have renewed : Renewed rq.src rq.hopCount _ (m, out) := reverse.renewed (same.symm ▸ better) (same.symm ▸ waits) silent
      refine .heard rq.hopCount heard waits (Renewed.settled ?_ answered)
      exact ⟨renewed.index, renewed.alive, renewed.reqTimeout, renewed.reqCnt, renewed.reqLastTtl, same ▸ renewed.lastHopCount, silent⟩
    · have calm := not_lt.mp waits
      have kept : Kept rq.src _ (m, out) := reverse.kept (same.symm ▸ better) (same.symm ▸ calm) silent
      refine .ignored rq.hopCount heard calm (Kept.settled ?_ answered)
      exact ⟨kept.index, kept.alive, same ▸ kept.same, silent⟩
  · refine .outcome ((news_request body).trans (if_neg fun whole => news ⟨whole.1, whole.2.2⟩)) (.quiet ?_)
    have quiet : Quiet d (a.idInsert now rq.src rq.bcastId) (m, out) := reverse.quiet (same.symm ▸ news) silent
    exact (idle.trans quiet).trans answered

theorem recvReply_follows (tame : a.Tame) (sized : rp.hopCount < 2 ^ 8) (body : p.body = .reply rp) (d : ℕ) :
    Yields False (a.recvReply now { p with ttl := p.ttl - 1 } rp) (Follows now d a (.recv p)) := by
  have looked := Quiet.rtFind a d rp.dst
  have found := rtLookup_rtFind a rp.dst
  obtain ⟨tame', small, index⟩ := tame.rtFind rp.dst
  have known : rp.dst = d → (a.rtFind rp.dst).2 = a.entry d := fun here => here ▸ rfl
  unfold recvReply
  generalize a.rtFind rp.dst = entry at looked found tame' small index known
  obtain ⟨m, rt⟩ := entry
  dsimp only at found tame' small index known ⊢
  refine .ite (fun better => ?_) fun worse => ?_
  · generalize taken : (if p.daddr = some m.index then _ else _ : AodvRtEntry) = new
    have facts : new.dst = rt.dst ∧ new.hops = rp.hopCount ∧ new.flags = .up ∧ new.reqTimeout = 0 ∧ new.reqCnt = 0 ∧
        new.reqLastTtl = rp.hopCount ∧ new.lastHopCount = rt.lastHopCount := by
      subst taken
      split_ifs <;> exact ⟨rfl, rfl, rfl, rfl, rfl, rfl, rfl⟩
    obtain ⟨dst, hops, up, reqTimeout, reqCnt, reqLastTtl, lastHopCount⟩ := facts
    have towards : new.dst = rp.dst := dst.trans (rtLookup_dst found)
    have changed : (m.rtSet new).Tame := tame'.rtSet (hops ▸ sized)
    have set := entry_rtSet new found towards d
    have settled (result : AODV × List AodvPacket) (quiet : Quiet d (m.rtSet new) result) : Follows now d a (.recv p) result := by
      by_cases here : rp.dst = d
      · have better : isBetter (a.entry d) rp.dstSeqno rp.hopCount := known here ▸ better
        have news : a.news d (.recv p) = some (.replied rp.hopCount) := (news_reply body).trans (if_pos ⟨here, better⟩)
        have before : rt.lastHopCount = (a.entry d).lastHopCount := congrArg AodvRtEntry.lastHopCount (known here)
        rw [if_pos here.symm] at set
        have renewed : Renewed d rp.hopCount a (m.rtSet new, []) := by
          refine ⟨index, ?_, ?_, ?_, ?_, ?_, rfl⟩ <;> rw [show (m.rtSet new, ([] : List AodvPacket)).1.entry d = new from set]
          · rw [up]
            exact AodvFlags.noConfusion
          · exact reqTimeout
          · exact reqCnt
          · exact reqLastTtl
          · exact lastHopCount.trans before
        exact .replied rp.hopCount news (renewed.settled quiet)
      · rw [if_neg fun same => here same.symm] at set
        have elsewhere : Quiet d m (m.rtSet new, []) := .rtSet new found towards fun same => absurd same.symm here
        exact .outcome ((news_reply body).trans (if_neg fun whole => here whole.1)) (.quiet ((looked.trans elsewhere).trans quiet))
    have finish : ∀ result, Quiet d (m.rtSet new) result → Yields False
        (if p.daddr = some result.1.index then some result
          else do
            let others ← result.1.passReply now { p with ttl := p.ttl - 1 } rp
            return (others.1, result.2 ++ others.2)) (Follows now d a (.recv p)) := by
      rintro ⟨b, out⟩ flushed
      refine .ite (fun _ => settled _ flushed) fun _ => .bind (passReply_quiet d) ?_
      rintro ⟨c, out'⟩ passed
      exact Yields.some (settled _ (flushed.trans passed))
    refine .ite (fun _ => .bind (.of_asserting False.elim fun _ => flush_quiet changed d) fun result held => finish result held.1) fun _ => ?_
    exact .bind (Yields.some (.of_rtable rfl rfl rfl)) finish
  · refine .outcome ((news_reply body).trans (if_neg ?_)) (.quiet looked)
    rintro ⟨here, better⟩
    exact worse (known here ▸ better)

theorem recv_follows (tame : a.Tame) (sized : p.body.Sized) (d : ℕ) : Yields False (a.recv now p) (Follows now d a (.recv p)) := by
  have unasked (none : a.news d (.recv p) = none) {routine : Option (AODV × List AodvPacket)} (does : Yields False routine (Outcome now d a)) :
      Yields False routine (Follows now d a (.recv p)) := .mono does fun _ outcome => .outcome none outcome
  unfold recv
  cases body : p.body with
  | request rq => exact recvRequest_follows tame (by rw [body] at sized; exact sized) body d
  | reply rp => exact recvReply_follows tame (by rw [body] at sized; exact sized) body d
  | error unreachable => exact unasked (by unfold news; simp only [body]) (recvError_outcome d)
  | hello rh =>
    have heard : Yields False (a.recvHello now rh.dst) fun b => Quiet d a (b, []) :=
      .ite (fun _ => .of_rtable rfl rfl rfl) fun _ => .of_asserting False.elim fun _ => .of_rtable rfl rfl rfl
    exact unasked (by unfold news; simp only [body]) (.map heard fun _ quiet => .quiet quiet)
  | data numForwards => exact unasked (by unfold news; simp only [body]) (recvData_outcome (by rw [body]; rfl) d)

theorem handle_follows {event : Event} (tame : a.Tame) (sized : ∀ p, event = .recv p → p.body.Sized) (d : ℕ) :
    Yields False (a.handle now event) (Follows now d a event) := by
  cases event with
  | recv p => exact recv_follows tame (sized p rfl) d
  | linkFailed p => exact .mono (rtLlFailed_outcome d) fun _ outcome => .outcome rfl outcome
  | broadcastTimer => exact Follows.outcome rfl (.quiet (.of_rtable rfl rfl rfl))
  | helloTimer => exact Follows.outcome rfl (.quiet (.of_rtable rfl rfl rfl))
  | neighborTimer => exact .mono (nbDeleteAll_failing now d) fun _ failing => .outcome rfl failing.outcome
  | routeCacheTimer => exact .mono (purgeEntries_outcome tame tame.distinct) fun _ outcome => .outcome rfl outcome
  | localRepairTimer daddr => exact Follows.outcome rfl (localRepairTimeout_outcome d)

end News

section Rule

theorem perHopTime_pos (rt : AodvRtEntry) : 0 < rt.perHopTime := by
  unfold AodvRtEntry.perHopTime
  dsimp only
  split_ifs with known
  · refine div_pos (List.sum_pos _ (fun t member => of_decide_eq_true (List.mem_filter.mp member).2) ?_) (Nat.cast_pos.mpr known)
    exact List.ne_nil_of_length_pos known
  · norm_num

/-- What the rule remembers is what is in the entry. -/
structure Tied (s : RingState) (rt : AodvRtEntry) : Prop where
  ttl : s.ttl = rt.reqLastTtl
  wide : s.wide = rt.reqCnt
  few : rt.reqCnt ≤ 4
  wait : rt.reqTimeout = 0 ∧ s.wait = none ∨ 0 < rt.reqTimeout ∧ s.wait = some rt.reqTimeout
  lastHops : ∀ h ∈ s.lastHops, rt.lastHopCount = h

variable {s : RingState}

theorem Tied.start (d : ℕ) : Tied .start (.make d) := ⟨rfl, rfl, Nat.zero_le 4, Or.inl ⟨rfl, rfl⟩, fun _ known => absurd known.symm (Option.some_ne_none _)⟩

theorem Tied.of_same {rt' : AodvRtEntry} (tied : Tied s rt) (same : SameSearch rt rt') : Tied s rt' where
  ttl := tied.ttl.trans same.reqLastTtl.symm
  wide := tied.wide.trans same.reqCnt.symm
  few := same.reqCnt ▸ tied.few
  wait := by
    rw [same.reqTimeout]
    exact tied.wait
  lastHops h known := same.lastHopCount.trans (tied.lastHops h known)

theorem Tied.due (tied : Tied s rt) (due : rt.reqTimeout ≤ now) : ∀ t ∈ s.wait, t ≤ now := by
  rcases tied.wait with ⟨_, none⟩ | ⟨_, some⟩
  · rw [none]
    exact fun t member => absurd member.symm (Option.some_ne_none t)
  · rw [some]
    rintro t ⟨⟩
    exact due

theorem ringTtl_pos (last : ℕ) : 0 < ringTtl last := by
  unfold ringTtl
  split_ifs <;> omega

/-- The TTL is that of a request through the whole network from the threshold on. -/
theorem ringTtl_eq_iff (last : ℕ) : ringTtl last = 30 ↔ ¬last < 7 := by
  unfold ringTtl
  split_ifs <;> omega

theorem requested_reqLastTtl (rt : AodvRtEntry) : (rt.requested now).reqLastTtl = ringTtl (max rt.reqLastTtl rt.lastHopCount) := rfl

theorem requested_reqCnt (rt : AodvRtEntry) :
    (rt.requested now).reqCnt = if (rt.requested now).reqLastTtl = 30 then rt.reqCnt + 1 else rt.reqCnt := by
  rw [requested_reqLastTtl, if_congr (ringTtl_eq_iff _) rfl rfl, ite_not]
  rfl

theorem requested_reqTimeout (now : ℚ) (rt : AodvRtEntry) : (rt.requested now).reqTimeout =
    now + ringTimeout (rt.requested now).reqLastTtl (rt.requested now).reqCnt rt.perHopTime := by
  have whole : (rt.requested now).reqTimeout = min ((if (rt.requested now).reqCnt > 0
      then 2 * ((rt.requested now).reqLastTtl : ℚ) * rt.perHopTime * (rt.requested now).reqCnt
      else 2 * ((rt.requested now).reqLastTtl : ℚ) * rt.perHopTime) + now) (now + 10) := rfl
  rw [whole, add_comm _ now, min_add_add_left]
  rfl

theorem Tied.requested (tied : Tied s rt) (few : rt.reqCnt ≤ 3) (later : 0 ≤ now) :
    Tied (ringSearch.next s (.request now (rt.requested now).reqLastTtl rt.perHopTime)) (rt.requested now) := by
  have ttl : 0 < (rt.requested now).reqLastTtl := ringTtl_pos _
  have network : ((rt.requested now).reqLastTtl : ℤ) = 30 ↔ (rt.requested now).reqLastTtl = 30 := by omega
  have wide : (if ((rt.requested now).reqLastTtl : ℤ) = 30 then s.wide + 1 else s.wide) = (rt.requested now).reqCnt := by
    rw [requested_reqCnt, if_congr network rfl rfl, tied.wide]
  have cnt : (rt.requested now).reqCnt ≤ 4 := by
    rw [requested_reqCnt]
    split_ifs <;> omega
  have timeout := requested_reqTimeout now rt
  have wait : 0 < ringTimeout (rt.requested now).reqLastTtl (rt.requested now).reqCnt rt.perHopTime := by
    have once : 0 < 2 * ((rt.requested now).reqLastTtl : ℚ) * rt.perHopTime :=
      mul_pos (mul_pos two_pos (Nat.cast_pos.mpr ttl)) (perHopTime_pos rt)
    unfold ringTimeout
    refine lt_min ?_ (by norm_num)
    split_ifs with counted
    · exact mul_pos once (Nat.cast_pos.mpr counted)
    · exact once
  refine ⟨rfl, wide, cnt, Or.inr ⟨?_, ?_⟩, tied.lastHops⟩
  · rw [timeout]
    exact add_pos_of_nonneg_of_pos later wait
  · rw [timeout, ← wide]
    rfl

theorem Tied.renewed {rt' : AodvRtEntry} {h : ℕ} (tied : Tied s rt) (reqTimeout : rt'.reqTimeout = 0) (reqCnt : rt'.reqCnt = 0)
    (reqLastTtl : rt'.reqLastTtl = h) (lastHopCount : rt'.lastHopCount = rt.lastHopCount) : Tied (ringSearch.next s (.replied h)) rt' where
  ttl := reqLastTtl.symm
  wide := reqCnt.symm
  few := reqCnt ▸ Nat.zero_le 4
  wait := Or.inl ⟨reqTimeout, rfl⟩
  lastHops h known := lastHopCount.trans (tied.lastHops h known)

/-- The marks of an event after which the route has not gone down and the packets have not been dropped. -/
theorem marks_plain (now : ℚ) {event : Event} {news : Option SearchMark} {ttls : List ℤ} (brings : a.news d event = news)
    (down : (result.1.entry d).flags = .down → (a.entry d).flags = .down) (sent : result.2.filterMap (ownTtl a.index d) = ttls)
    (lasts : news = none → (a.entry d).reqCnt ≤ (result.1.entry d).reqCnt) :
    a.marks now d event result = news.toList ++ ttls.map fun ttl => .request now ttl (a.entry d).perHopTime := by
  unfold marks
  rw [brings, sent, if_neg fun fell => fell.1 (down fell.2), if_neg fun dropped => Nat.not_lt.mpr (lasts dropped.1) dropped.2,
    List.append_nil, List.append_nil]

theorem Outcome.accepted {event : Event} (outcome : Outcome now d a result) (none : a.news d event = none) (tied : Tied s (a.entry d))
    (later : 0 ≤ now) :
    ringSearch.Accepts s (a.marks now d event result) ∧ Tied (ringSearch.after s (a.marks now d event result)) (result.1.entry d) := by
  cases outcome with
  | quiet quiet =>
    have marks := marks_plain now none quiet.alike.down.mp quiet.silent fun _ => quiet.alike.search.reqCnt.ge
    rw [marks]
    exact ⟨trivial, tied.of_same quiet.alike.search⟩
  | kept kept =>
    have marks := marks_plain now none (fun fell => absurd fell kept.alive) kept.silent fun _ => kept.same.reqCnt.ge
    rw [marks]
    exact ⟨trivial, tied.of_same kept.same⟩
  | requested index due few same down sent =>
    have counted : (a.entry d).reqCnt ≤ ((a.entry d).requested now).reqCnt := by
      rw [requested_reqCnt]
      split_ifs
      · exact Nat.le_succ _
      · exact le_rfl
    have marks := marks_plain now none down sent fun _ => counted.trans same.reqCnt.ge
    rw [marks]
    refine ⟨⟨⟨tied.due due, tied.wide.le.trans few, fun h known => ?_⟩, trivial⟩, (tied.requested few later).of_same same⟩
    rw [requested_reqLastTtl, tied.ttl, tied.lastHops h known]
  | dropped index due many same down silent left =>
    have fewer : (result.1.entry d).reqCnt < (a.entry d).reqCnt := by
      rw [same.reqCnt]
      exact Nat.zero_lt_of_lt many
    have marks : a.marks now d event result = [.dropped now 0] := by
      unfold AODV.marks
      rw [none, silent, if_neg fun fell => fell.1 (down fell.2), if_pos ⟨rfl, fewer⟩, left]
      rfl
    rw [marks]
    have all : s.wide = 4 := tied.wide.trans (Nat.le_antisymm tied.few many)
    refine ⟨⟨⟨tied.due due, all, rfl⟩, trivial⟩, Tied.of_same ?_ same⟩
    exact ⟨tied.ttl, rfl, Nat.zero_le 4, Or.inr ⟨add_pos_of_nonneg_of_pos later (by norm_num), rfl⟩, tied.lastHops⟩
  | fell index before down lost same silent =>
    have marks : a.marks now d event result = [.fell (a.entry d).hops] := by
      unfold AODV.marks
      rw [none, silent, if_pos ⟨before, down⟩, if_neg fun dropped => absurd dropped.2 (Nat.not_lt.mpr same.reqCnt.ge)]
      rfl
    rw [marks]
    have fallen : Tied (ringSearch.next s (.fell (a.entry d).hops)) { a.entry d with lastHopCount := (a.entry d).hops } :=
      ⟨tied.ttl, tied.wide, tied.few, tied.wait, fun h known => Option.some.inj known⟩
    exact ⟨⟨trivial, trivial⟩, fallen.of_same same⟩

theorem Renewed.accepted {event : Event} {news : SearchMark} {h : ℕ} (renewed : Renewed d h a result) (brings : a.news d event = some news)
    (allowed : ringSearch.allows s news) (next : ringSearch.next s news = ringSearch.next s (.replied h)) (tied : Tied s (a.entry d)) :
    ringSearch.Accepts s (a.marks now d event result) ∧ Tied (ringSearch.after s (a.marks now d event result)) (result.1.entry d) := by
  have marks := marks_plain now brings (fun fell => absurd fell renewed.alive) renewed.silent fun none => absurd none (Option.some_ne_none _)
  rw [marks]
  refine ⟨⟨allowed, trivial⟩, ?_⟩
  rw [show ringSearch.after s _ = ringSearch.next s news from rfl, next]
  exact tied.renewed renewed.reqTimeout renewed.reqCnt renewed.reqLastTtl renewed.lastHopCount

/-- What happens about a destination is allowed by the rule, which remembers it. -/
theorem Follows.accepted {event : Event} (follows : Follows now d a event result) (tied : Tied s (a.entry d)) (later : 0 ≤ now) :
    ringSearch.Accepts s (a.marks now d event result) ∧ Tied (ringSearch.after s (a.marks now d event result)) (result.1.entry d) := by
  cases follows with
  | outcome none outcome => exact outcome.accepted none tied later
  | replied h news renewed => exact renewed.accepted news trivial rfl tied
  | heard h news waits renewed =>
    refine renewed.accepted news trivial (if_pos ?_) tied
    rcases tied.wait with ⟨zero, _⟩ | ⟨_, some⟩
    · exact absurd zero waits.ne'
    · rw [some]
      rfl
  | ignored h news calm kept =>
    have marks := marks_plain now news (fun fell => absurd fell kept.alive) kept.silent fun none => absurd none (Option.some_ne_none _)
    have idle : s.wait = none := tied.wait.elim And.right fun waits => absurd waits.1 (not_lt.mpr calm)
    have next : ringSearch.next s (.heard h) = s := if_neg (by rw [idle]; exact Bool.noConfusion)
    rw [marks]
    refine ⟨⟨trivial, trivial⟩, ?_⟩
    rw [show ringSearch.after s _ = ringSearch.next s (.heard h) from rfl, next]
    exact tied.of_same kept.same

end Rule

end AODV

namespace AodvNetwork

variable {net next : AodvNetwork} {i : ℕ} {s : ℚ × AodvStep} {out : Unit}

/-- The agents are tame, and the rule remembers what is in the entry for the destination. -/
def SearchTied (i d : ℕ) (net : AodvNetwork) (t : RingState) : Prop := net.Tame ∧ Tied t ((net.node i).entry d)

theorem step_searches (i d : ℕ) (t : RingState) (related : net.SearchTied i d t) (later : 0 ≤ s.1)
    (step : machine.step net s = some (next, out)) :
    ringSearch.Accepts t (net.searchMarks i d s) ∧ next.SearchTied i d (ringSearch.after t (net.searchMarks i d s)) := by
  have tame := step_tame related.1 step
  unfold machine at step
  dsimp only at step
  unfold searchMarks
  cases happens : net.event s.2 with
  | none =>
    rw [happens] at step
    cases Option.some.inj step
    exact ⟨trivial, tame, related.2⟩
  | some what =>
    obtain ⟨j, event⟩ := what
    rw [happens] at step
    obtain ⟨result, handled, same⟩ := Option.map_eq_some_iff.mp step
    cases same
    dsimp only
    by_cases here : j = i
    · subst here
      rw [if_pos rfl, handled]
      have follows : Follows s.1 d (net.node j) event result :=
        (handle_follows (related.1.nodes j) (fun p received => related.1.event (received ▸ happens)) d).of_eq_some handled
      have accepted := follows.accepted related.2 later
      refine ⟨accepted.1, tame, ?_⟩
      rw [after_node_self]
      exact accepted.2
    · rw [if_neg here]
      refine ⟨trivial, tame, ?_⟩
      rw [after_node_other fun same => here same.symm]
      exact related.2

/-- In every run, what a node does about a destination follows the rule of the expanding ring search. -/
theorem searches_ring (i d : ℕ) (steps : List (ℚ × AodvStep)) (times : ∀ s ∈ steps, 0 ≤ s.1) :
    ringSearch.Accepts .start (machine.history (searchMarks i d) initial steps) := by
  have along : machine.Along (fun _ s => 0 ≤ s.1) initial steps := Machine.along_of_forall times
  have related : SearchTied i d initial .start := ⟨tame_initial, Tied.start d⟩
  exact Machine.accepts_history (fun net t s next out related later step => step_searches i d t related later step) related along

/-- A route is found, its link fails, and it is searched for again. -/
def failedRun : List (ℚ × AodvStep) :=
  [(1, .own 0 (.recv (dataTo 0 1 none 0))), (11 / 10, .deliver 1 0), (12 / 10, .deliver 0 1), (13 / 10, .own 0 (.linkFailed (dataTo 0 1 (some 1) 0))),
    (14 / 10, .own 0 (.recv (dataTo 0 1 none 0)))]

theorem searches_ring_failed : ringSearch.Accepts .start (machine.history (searchMarks 0 1) initial failedRun) :=
  searches_ring 0 1 failedRun (by decide +kernel)

/-- Two requests for the destination are at least the time-out of the first one apart. -/
def RequestsApart (marks : List SearchMark) : Prop :=
  ∀ first between last t ttl perHop t' ttl' perHop',
    marks = first ++ .request t ttl perHop :: between ++ .request t' ttl' perHop' :: last → t + ringTimeout ttl.toNat 0 perHop ≤ t'

theorem reply_hastens : ¬∀ (i d : ℕ) (steps : List (ℚ × AodvStep)), (∀ s ∈ steps, 0 ≤ s.1) →
    RequestsApart (machine.history (searchMarks i d) initial steps) := by
  intro claimed
  have history : machine.history (searchMarks 0 1) initial failedRun =
      [.request 1 30 (3 / 100), .replied 1, .fell 1, .request (14 / 10) 3 (1 / 5)] := by decide +kernel
  have apart := claimed 0 1 failedRun (by decide +kernel) [] [.replied 1, .fell 1] [] 1 30 (3 / 100) (14 / 10) 3 (1 / 5) history
  exact absurd apart (by decide +kernel)

end AodvNetwork

end Ns2
