import Ns2.Aodv.Assertions
import Ns2.Aodv.Tame

namespace Ns2

open AODV AodvDiscipline

variable {a b m : AODV} {rt : AodvRtEntry} {p : AodvPacket} {ps : List AodvPacket} {now : ℚ} {d saddr : ℕ} {rq : AodvRequest}

/-- All that has changed in the table is when the entry for `d` expires. -/
structure AODV.Touched (now : ℚ) (d : ℕ) (a b : AODV) : Prop where
  index : b.index = a.index
  others : ∀ d', d' ≠ d → b.rtLookup d' = a.rtLookup d'
  here : b.rtLookup d = a.rtLookup d ∨ ∃ rt, a.rtLookup d = some rt ∧ b.rtLookup d = some { rt with expire := now + 10 }

namespace AODV

theorem Touched.of_eq (index : b.index = a.index) (rtable : b.rtable = a.rtable) : Touched now d a b := by
  have same (d : ℕ) : b.rtLookup d = a.rtLookup d := by
    unfold rtLookup
    rw [rtable]
  exact ⟨index, fun d' _ => same d', Or.inl (same d)⟩

theorem Touched.trans (first : Touched now d a m) (second : Touched now d m b) : Touched now d a b where
  index := second.index.trans first.index
  others d' other := (second.others d' other).trans (first.others d' other)
  here := by
    rcases second.here with same | ⟨rt, before, after⟩
    · rw [same]
      exact first.here
    · rcases first.here with same' | ⟨rt', before', after'⟩
      · exact Or.inr ⟨rt, same' ▸ before, after⟩
      · rw [after'] at before
        cases Option.some.inj before
        exact Or.inr ⟨rt', before', after⟩

theorem forward_touched : Yields False (a.forward now (some d) p) fun result => Touched now d a result.1 := by
  unfold forward
  refine .ite (fun _ => .of_eq rfl rfl) fun _ => .ite (fun _ => .of_eq rfl rfl) fun _ => ?_
  refine .bind (.of_exists False.elim) fun rt found => .of_asserting False.elim fun _ => ⟨rfl, fun d' other => ?_, Or.inr ⟨rt, found, ?_⟩⟩
  · rw [rtLookup_rtSet, if_neg]
    exact (rtLookup_dst found).symm ▸ other
  · rw [rtLookup_rtSet, if_pos (rtLookup_dst found).symm, found, Option.map_some]

theorem forwardAll_touched : Yields False (a.forwardAll now d ps) fun result => Touched now d a result.1 := by
  induction ps generalizing a with
  | nil => exact Touched.of_eq rfl rfl
  | cons p rest ih =>
    refine .bind forward_touched ?_
    rintro ⟨m, out⟩ first
    refine .bind ih ?_
    rintro ⟨b, out'⟩ later
    exact first.trans later

theorem flush_touched : Yields False (a.flush now d) fun result => Touched now d a result.1 := by
  refine .mono forwardAll_touched fun result touched => ?_
  have emptied : Touched now d a (a.dequeAll now d).1 := .of_eq rfl rfl
  exact emptied.trans touched

theorem forward_body {dst : Option ℕ} : Yields False (a.forward now dst p) fun result => ∀ q ∈ result.2, q.body = p.body := by
  unfold forward
  refine .ite (fun _ => List.forall_mem_nil _) fun _ => .ite (fun _ => List.forall_mem_nil _) fun _ => ?_
  cases dst with
  | none =>
    refine .of_asserting False.elim fun _ q member => ?_
    cases List.mem_singleton.mp member
    rfl
  | some d =>
    refine .bind (.of_exists False.elim) fun rt _ => .of_asserting False.elim fun _ q member => ?_
    cases List.mem_singleton.mp member
    rfl

theorem forwardAll_data (data : ∀ p ∈ ps, p.body.isData = true) :
    Yields False (a.forwardAll now d ps) fun result => ∀ q ∈ result.2, q.body.isData = true := by
  induction ps generalizing a with
  | nil => exact List.forall_mem_nil _
  | cons p rest ih =>
    obtain ⟨first, others⟩ := List.forall_mem_cons.mp data
    refine .bind forward_body ?_
    rintro ⟨m, out⟩ same
    refine .bind (ih others) ?_
    rintro ⟨b, out'⟩ later
    exact Yields.some fun q member => (List.mem_append.mp member).elim (fun early => (same q early).symm ▸ first) (later q)

/-- What goes out of the send buffer is data. -/
theorem flush_data (tame : a.Tame) : Yields False (a.flush now d) fun result => ∀ q ∈ result.2, q.body.isData = true :=
  forwardAll_data (dequeAll_data tame now d)

section Reverse

/-- The entry for the source of a request, as the reverse route leaves it. -/
def reversed (rt0 : AodvRtEntry) (now : ℚ) (saddr : ℕ) (rq : AodvRequest) : AodvRtEntry :=
  let rt0 := { rt0 with expire := max rt0.expire (now + 6) }
  if isBetter rt0 rq.srcSeqno rq.hopCount then
    let rt0 := rt0.rtUpdate rq.srcSeqno rq.hopCount saddr (max rt0.expire (now + 6))
    if rt0.reqTimeout > 0 then { rt0 with reqCnt := 0, reqTimeout := 0, reqLastTtl := rq.hopCount, expire := now + 10 } else rt0
  else rt0

theorem reversed_dst (rt0 : AodvRtEntry) : (reversed rt0 now saddr rq).dst = rt0.dst := by
  unfold reversed
  dsimp only
  split_ifs <;> rfl

theorem reversed_fresh (rt0 : AodvRtEntry) : now ≤ (reversed rt0 now saddr rq).expire := by
  have later : now ≤ max rt0.expire (now + 6) := (by linarith : now ≤ now + 6).trans (le_max_right _ _)
  unfold reversed
  dsimp only [AodvRtEntry.rtUpdate]
  split_ifs
  · dsimp only
    linarith
  · exact later.trans (le_max_left _ _)
  · exact later

theorem reversed_up (rt0 : AodvRtEntry) (better : isBetter rt0 rq.srcSeqno rq.hopCount) : (reversed rt0 now saddr rq).flags = .up := by
  have better' : isBetter { rt0 with expire := max rt0.expire (now + 6) } rq.srcSeqno rq.hopCount := better
  unfold reversed
  dsimp only
  rw [if_pos better']
  split_ifs <;> rfl

theorem reversed_worse (rt0 : AodvRtEntry) (worse : ¬isBetter rt0 rq.srcSeqno rq.hopCount) :
    reversed rt0 now saddr rq = { rt0 with expire := max rt0.expire (now + 6) } := by
  have worse' : ¬isBetter { rt0 with expire := max rt0.expire (now + 6) } rq.srcSeqno rq.hopCount := worse
  unfold reversed
  dsimp only
  rw [if_neg worse']

/-- What the reverse route does to the table. -/
structure Reversed (a : AODV) (now : ℚ) (saddr : ℕ) (rq : AodvRequest) (b : AODV) : Prop where
  index : b.index = a.index
  others : ∀ d, d ≠ rq.src → b.rtLookup d = a.rtLookup d
  here : ∃ expire, b.rtLookup rq.src = some { reversed (a.rtFind rq.src).2 now saddr rq with expire := expire } ∧ now ≤ expire

theorem reverseRoute_spec : Yields False (a.reverseRoute now saddr rq) fun result => Reversed a now saddr rq result.1 := by
  have others := rtLookup_rtFind_ne a rq.src
  have found := rtLookup_rtFind a rq.src
  have index : (a.rtFind rq.src).1.index = a.index := by
    unfold rtFind
    cases a.rtLookup rq.src <;> rfl
  have fresh : now ≤ (reversed (a.rtFind rq.src).2 now saddr rq).expire := reversed_fresh _
  have dst : (reversed (a.rtFind rq.src).2 now saddr rq).dst = rq.src := (reversed_dst _).trans (rtLookup_dst found)
  have set : ((a.rtFind rq.src).1.rtSet (reversed (a.rtFind rq.src).2 now saddr rq)).rtLookup rq.src =
      some (reversed (a.rtFind rq.src).2 now saddr rq) := by
    rw [rtLookup_rtSet, if_pos dst.symm, found, Option.map_some]
  have elsewhere (d : ℕ) (other : d ≠ rq.src) :
      ((a.rtFind rq.src).1.rtSet (reversed (a.rtFind rq.src).2 now saddr rq)).rtLookup d = a.rtLookup d := by
    rw [rtLookup_rtSet, if_neg (dst.symm ▸ other), others d other]
  unfold reverseRoute
  dsimp only
  refine .ite (fun better => ?_) fun worse => ?_
  · have whole : reversed (a.rtFind rq.src).2 now saddr rq = _ := if_pos better
    dsimp only at whole
    rw [← whole]
    refine .of_asserting False.elim fun _ => .of_asserting False.elim fun _ => .mono flush_touched fun result touched => ?_
    refine ⟨touched.index.trans index, fun d other => (touched.others d other).trans (elsewhere d other), ?_⟩
    rcases touched.here with same | ⟨rt, before, after⟩
    · exact ⟨_, same.trans set, fresh⟩
    · cases Option.some.inj (set.symm.trans before)
      exact ⟨now + 10, after, by linarith⟩
  · have whole : reversed (a.rtFind rq.src).2 now saddr rq = _ := if_neg worse
    rw [← whole]
    exact ⟨index, elsewhere, _, set, fresh⟩

theorem reverseRoute_data (tame : a.Tame) (sized : rq.hopCount < 2 ^ 8) :
    Yields False (a.reverseRoute now saddr rq) fun result => ∀ q ∈ result.2, q.body.isData = true := by
  unfold reverseRoute
  obtain ⟨looked, small, _⟩ := tame.rtFind rq.src
  generalize a.rtFind rq.src = entry at looked small
  obtain ⟨m, rt0⟩ := entry
  dsimp only at looked small ⊢
  refine .ite (fun _ => ?_) fun _ => List.forall_mem_nil _
  refine .of_asserting False.elim fun _ => .of_asserting False.elim fun _ => flush_data (looked.rtSet ?_)
  split_ifs <;> exact sized

end Reverse

section Answer

theorem uint32_le {time : ℚ} (positive : 0 ≤ time) : (uint32 time : ℚ) ≤ time := by
  have floor : 0 ≤ ⌊time⌋ := Int.floor_nonneg.mpr positive
  have least : ((⌊time⌋ % 2 ^ 32).toNat : ℤ) ≤ ⌊time⌋ := by omega
  unfold uint32
  rw [if_pos positive]
  have exact : ((⌊time⌋ % 2 ^ 32).toNat : ℚ) ≤ (⌊time⌋ : ℚ) := by exact_mod_cast least
  exact exact.trans (Int.floor_le time)

/-- The entry answers the request. -/
def Answers (rt : AodvRtEntry) (rq : AodvRequest) : Prop := rt.hops ≠ aodvInfinity ∧ rt.seqno ≥ rq.dstSeqno

instance (rt : AodvRtEntry) (rq : AodvRequest) : Decidable (Answers rt rq) := inferInstanceAs (Decidable (_ ∧ _))

/-- The reply that an entry gives. -/
def replyOf (a : AODV) (now : ℚ) (rt : AodvRtEntry) (rq : AodvRequest) : AodvReply :=
  ⟨(rt.hops + 1) % 2 ^ 8, rq.dst, rt.seqno, a.index, uint32 (rt.expire - now), rq.timestamp⟩

/-- What an agent other than the destination replies. -/
theorem answerRequest_replies (remote : rq.dst ≠ a.index) : Yields False (a.answerRequest now p rq) fun result => ∀ rp,
    (∃ q ∈ result.2, q.body = .reply rp) ↔ ∃ rt, a.rtLookup rq.dst = some rt ∧ Answers rt rq ∧ rp = replyOf a now rt rq := by
  have passed (p' : AodvPacket) (rq' : AodvRequest) (body : p'.body = .request rq') : Yields False (a.forward now none p') fun result =>
      ∀ q ∈ result.2, ∀ rp, q.body ≠ .reply rp := by
    refine .ite (fun _ => List.forall_mem_nil _) fun _ => .ite (fun _ => List.forall_mem_nil _) fun _ => ?_
    refine .of_asserting False.elim fun _ q member rp reply => ?_
    cases List.mem_singleton.mp member
    cases body.symm.trans reply
  unfold answerRequest
  rw [if_neg remote]
  cases found : a.rtLookup rq.dst with
  | none =>
    refine .mono (passed _ _ rfl) fun result silent rp => iff_of_false (fun sent => ?_) fun known => ?_
    · obtain ⟨q, member, reply⟩ := sent
      exact silent q member rp reply
    · obtain ⟨rt, absent, _⟩ := known
      cases absent
  | some rt =>
    refine .ite (fun answers => ?_) fun silent' => .mono (passed _ _ rfl) fun result silent rp => iff_of_false (fun sent => ?_) fun known => ?_
    · refine .bind (.of_exists False.elim) fun sent replied => .bind (.of_exists False.elim) fun rt0 _ => ?_
      refine .bind (.of_exists False.elim) fun rt' _ => .bind (.of_exists False.elim) fun rt0' _ => Yields.some fun rp => ?_
      obtain ⟨towards, _, same⟩ := Option.bind_eq_some_iff.mp replied
      cases Option.some.inj same
      constructor
      · rintro ⟨q, member, reply⟩
        cases List.mem_singleton.mp member
        exact ⟨rt, rfl, answers, (AodvBody.reply.inj reply).symm⟩
      · rintro ⟨rt', same', _, rfl⟩
        cases Option.some.inj same'
        exact ⟨_, List.mem_singleton_self _, rfl⟩
    · obtain ⟨q, member, reply⟩ := sent
      exact silent q member rp reply
    · obtain ⟨rt', same', answers, _⟩ := known
      cases Option.some.inj same'
      exact silent' answers

/-- The reply is backed by an entry of the agent that sends it. -/
structure Backed (a : AODV) (now : ℚ) (rq : AodvRequest) (rp : AodvReply) (rt : AodvRtEntry) : Prop where
  found : a.rtLookup rq.dst = some rt
  up : rt.flags = .up
  unexpired : now ≤ rt.expire
  dst : rp.dst = rq.dst
  seqno : rp.dstSeqno = rt.seqno ∧ rq.dstSeqno ≤ rp.dstSeqno
  hopCount : rp.hopCount = rt.hops + 1
  lifetime : rp.lifetime ≤ rt.expire - now

theorem backed_iff (tame : a.Tame) (found : a.rtLookup rq.dst = some rt) (answers : Answers rt rq) :
    (∃ rt', Backed a now rq (replyOf a now rt rq) rt') ↔ rt.flags = .up ∧ now ≤ rt.expire := by
  constructor
  · rintro ⟨rt', backed⟩
    cases Option.some.inj (found.symm.trans backed.found)
    exact ⟨backed.up, backed.unexpired⟩
  · rintro ⟨up, unexpired⟩
    have small := tame.found found
    have finite := answers.1
    refine ⟨rt, found, up, unexpired, rfl, ⟨rfl, answers.2⟩, Nat.mod_eq_of_lt ?_, uint32_le (sub_nonneg.mpr unexpired)⟩
    unfold aodvInfinity at finite
    omega

/-- The request is another agent's, and has not been seen before. -/
def TakesUp (a : AODV) (rq : AodvRequest) : Prop := rq.src ≠ a.index ∧ ¬a.idLookup rq.src rq.bcastId = true

instance (a : AODV) (rq : AodvRequest) : Decidable (TakesUp a rq) := inferInstanceAs (Decidable (_ ∧ _))

/-- What an agent other than the destination replies to a request is backed, at the time it is sent, after the reverse route. -/
def RepliesBacked (a : AODV) (now : ℚ) (p : AodvPacket) (rq : AodvRequest) : Prop :=
  rq.dst ≠ a.index → ∀ result, a.recvRequest now p rq = some result → ∀ q ∈ result.2, ∀ rp, q.body = .reply rp →
    ∃ first rt, (a.idInsert now rq.src rq.bcastId).reverseRoute now p.saddr rq = some first ∧ Backed first.1 now rq rp rt

/-- The entry that answers a request is up and has not expired; for the source of the request it may also be one that the request renews. -/
def AnswersFresh (a : AODV) (now : ℚ) (rq : AodvRequest) : Prop :=
  rq.dst ≠ a.index → TakesUp a rq → ∀ rt ∈ a.rtLookup rq.dst, Answers rt rq →
    if rq.dst = rq.src then isBetter rt rq.srcSeqno rq.hopCount ∨ rt.flags = .up else rt.flags = .up ∧ now ≤ rt.expire

instance (a : AODV) (now : ℚ) (rq : AodvRequest) : Decidable (AnswersFresh a now rq) :=
  inferInstanceAs (Decidable (_ → _ → ∀ rt ∈ a.rtLookup rq.dst, _))

/-- The entry that answers a request is the one for its destination before, or the one that the reverse route has renewed. -/
theorem answersFresh_iff (remote : rq.dst ≠ a.index) (takes : TakesUp a rq) (spec : Reversed (a.idInsert now rq.src rq.bcastId) now saddr rq b) :
    AnswersFresh a now rq ↔ ∀ rt, b.rtLookup rq.dst = some rt → Answers rt rq → rt.flags = .up ∧ now ≤ rt.expire := by
  have kept : ∀ d, (a.idInsert now rq.src rq.bcastId).rtLookup d = a.rtLookup d := fun _ => rfl
  have fresh : AnswersFresh a now rq ↔ ∀ rt, a.rtLookup rq.dst = some rt → Answers rt rq →
      if rq.dst = rq.src then isBetter rt rq.srcSeqno rq.hopCount ∨ rt.flags = .up else rt.flags = .up ∧ now ≤ rt.expire :=
    ⟨fun held => held remote takes, fun held _ _ => held⟩
  rw [fresh]
  by_cases own : rq.dst = rq.src
  · obtain ⟨expire, here, unexpired⟩ := spec.here
    rw [rtFind_idInsert] at here
    simp only [if_pos own]
    rw [own, here]
    have only : (∀ rt, some { reversed (a.rtFind rq.src).2 now saddr rq with expire := expire } = some rt → Answers rt rq →
        rt.flags = .up ∧ now ≤ rt.expire) ↔
          (Answers (reversed (a.rtFind rq.src).2 now saddr rq) rq → (reversed (a.rtFind rq.src).2 now saddr rq).flags = .up) := by
      constructor
      · exact fun held answers => (held _ rfl answers).1
      · intro held rt same answers
        cases Option.some.inj same
        exact ⟨held answers, unexpired⟩
    rw [only]
    cases found : a.rtLookup rq.src with
    | none =>
      have new : (a.rtFind rq.src).2 = .make rq.src := by
        unfold rtFind
        rw [found]
      rw [new]
      refine iff_of_true (fun rt absent => ?_) fun answers => ?_
      · cases absent
      · by_cases better : isBetter (.make rq.src) rq.srcSeqno rq.hopCount
        · exact reversed_up _ better
        · rw [reversed_worse _ better] at answers
          exact absurd rfl answers.1
    | some old =>
      have same : (a.rtFind rq.src).2 = old := by
        unfold rtFind
        rw [found]
      rw [same]
      by_cases better : isBetter old rq.srcSeqno rq.hopCount
      · refine iff_of_true (fun rt here _ => ?_) fun _ => reversed_up _ better
        cases Option.some.inj here
        exact Or.inl better
      · rw [reversed_worse _ better]
        constructor
        · exact fun held answers => (held old rfl answers).resolve_left better
        · intro held rt here answers
          cases Option.some.inj here
          exact Or.inr (held answers)
  · simp only [if_neg own]
    rw [spec.others rq.dst own, kept]

theorem repliesBacked_iff_fresh {result : AODV × List AodvPacket} (tame : a.Tame) (sized : rq.hopCount < 2 ^ 8)
    (done : a.recvRequest now p rq = some result) : RepliesBacked a now p rq ↔ AnswersFresh a now rq := by
  by_cases remote : rq.dst ≠ a.index
  · by_cases takes : TakesUp a rq
    · have run : a.recvRequest now p rq = (do
          let first ← (a.idInsert now rq.src rq.bcastId).reverseRoute now p.saddr rq
          let others ← first.1.answerRequest now p rq
          return (others.1, first.2 ++ others.2)) := by
        unfold recvRequest
        rw [if_neg takes.1, if_neg takes.2]
      rw [run] at done
      obtain ⟨first, reverses, more⟩ := Option.bind_eq_some_iff.mp done
      obtain ⟨others, answered, joined⟩ := Option.bind_eq_some_iff.mp more
      have noted : (a.idInsert now rq.src rq.bcastId).Tame := tame.of_eq rfl tame.queued
      have spec : Reversed (a.idInsert now rq.src rq.bcastId) now p.saddr rq first.1 := reverseRoute_spec.of_eq_some reverses
      have tamed : Tamed (a.idInsert now rq.src rq.bcastId) first := (reverseRoute_tamed noted sized).of_eq_some reverses
      have data : ∀ q ∈ first.2, q.body.isData = true := (reverseRoute_data noted sized).of_eq_some reverses
      have remote' : rq.dst ≠ first.1.index := fun own => remote (own.trans spec.index)
      have replies := (answerRequest_replies remote').of_eq_some answered
      rw [answersFresh_iff remote takes spec]
      constructor
      · intro backed rt found answers
        obtain ⟨q, member, reply⟩ := (replies (replyOf first.1 now rt rq)).mpr ⟨rt, found, answers, rfl⟩
        obtain ⟨first', rt', same, held⟩ := backed remote (others.1, first.2 ++ others.2) (run.trans (done.trans joined.symm)) q
          (List.mem_append_right _ member) _ reply
        cases Option.some.inj (reverses.symm.trans same)
        exact (backed_iff tamed.tame found answers).mp ⟨rt', held⟩
      · intro fresh _ result' done' q member rp reply
        cases Option.some.inj ((run.trans (done.trans joined.symm)).symm.trans done')
        rcases List.mem_append.mp member with early | late
        · have isData := data q early
          rw [reply] at isData
          cases isData
        · obtain ⟨rt, found, answers, rfl⟩ := (replies rp).mp ⟨q, late, reply⟩
          obtain ⟨rt', held⟩ := (backed_iff tamed.tame found answers).mpr (fresh rt found answers)
          exact ⟨first, rt', reverses, held⟩
    · have idle : a.recvRequest now p rq = some (a, []) := by
        unfold recvRequest
        split_ifs with own seen
        · rfl
        · rfl
        · exact absurd ⟨own, seen⟩ takes
      refine iff_of_true (fun _ result' done' q member => ?_) fun _ taken => absurd taken takes
      cases Option.some.inj (idle.symm.trans done')
      cases member
  · exact iff_of_true (fun other => absurd other remote) fun other => absurd other remote

end Answer

end AODV

namespace AodvNetwork

/-- The event is no request, or one for which this holds. -/
def OnRequest (Q : AodvPacket → AodvRequest → Prop) : AODV.Event → Prop
  | .recv p =>
    match p.body with
    | .request rq => Q { p with ttl := p.ttl - 1 } rq
    | .reply _ | .error _ | .hello _ | .data _ => True
  | .linkFailed _ | .broadcastTimer | .helloTimer | .neighborTimer | .routeCacheTimer | .localRepairTimer _ => True

instance OnRequest.decidable (Q : AodvPacket → AodvRequest → Prop) [∀ p rq, Decidable (Q p rq)] : ∀ event, Decidable (OnRequest Q event)
  | .recv ⟨ttl, saddr, daddr, nextHop, isUp, .request rq⟩ => inferInstanceAs (Decidable (Q ⟨ttl - 1, saddr, daddr, nextHop, isUp, .request rq⟩ rq))
  | .recv ⟨_, _, _, _, _, .reply _⟩ | .recv ⟨_, _, _, _, _, .error _⟩ | .recv ⟨_, _, _, _, _, .hello _⟩ => isTrue trivial
  | .recv ⟨_, _, _, _, _, .data _⟩ => isTrue trivial
  | .linkFailed _ | .broadcastTimer | .helloTimer | .neighborTimer | .routeCacheTimer | .localRepairTimer _ => isTrue trivial

/-- The replies of `recvRequest` in this step are backed. -/
def StepBacked (net : AodvNetwork) (s : ℚ × AodvStep) : Prop :=
  ∀ happens ∈ net.event s.2, OnRequest (RepliesBacked (net.node happens.1) s.1) happens.2

/-- The request that comes in with this step is not answered by an entry that is not up or has expired. -/
def StepFresh (net : AodvNetwork) (s : ℚ × AodvStep) : Prop :=
  ∀ happens ∈ net.event s.2, OnRequest (fun _ rq => AnswersFresh (net.node happens.1) s.1 rq) happens.2

instance (net : AodvNetwork) (s : ℚ × AodvStep) : Decidable (StepFresh net s) :=
  inferInstanceAs (Decidable (∀ happens ∈ net.event s.2, OnRequest (fun _ rq => AnswersFresh (net.node happens.1) s.1 rq) happens.2))

theorem stepBacked_iff {net next : AodvNetwork} {s : ℚ × AodvStep} {out : Unit} (tame : net.Tame)
    (step : machine.step net s = some (next, out)) : net.StepBacked s ↔ net.StepFresh s := by
  refine forall_congr' fun ⟨i, event⟩ => forall_congr' fun happens => ?_
  unfold machine at step
  dsimp only at step
  rw [happens] at step
  obtain ⟨result, handled, _⟩ := Option.map_eq_some_iff.mp step
  cases event with
  | recv p =>
    unfold OnRequest
    cases body : p.body with
    | request rq =>
      have sized := tame.event happens
      rw [body] at sized
      have done : (net.node i).recv s.1 p = some result := handled
      unfold AODV.recv at done
      rw [body] at done
      have exact := repliesBacked_iff_fresh (tame.nodes i) sized done
      simp only [body] at exact ⊢
      exact exact
    | reply rp => simp only [body]
    | error unreachable => simp only [body]
    | hello rh => simp only [body]
    | data numForwards => simp only [body]
  | linkFailed p => exact Iff.rfl
  | broadcastTimer => exact Iff.rfl
  | helloTimer => exact Iff.rfl
  | neighborTimer => exact Iff.rfl
  | routeCacheTimer => exact Iff.rfl
  | localRepairTimer daddr => exact Iff.rfl

/-- In every run the replies are backed exactly if no request is answered by an entry that is not up or has expired. -/
theorem repliesBacked_iff (steps : List (ℚ × AodvStep)) (last : AodvNetwork) (outs : List Unit)
    (run : machine.run initial steps = some (last, outs)) :
    machine.Along StepBacked initial steps ↔ machine.Along StepFresh initial steps := by
  have kept (net : AodvNetwork) (s : ℚ × AodvStep) (next : AodvNetwork) (out : Unit) (tame : net.Tame)
      (step : machine.step net s = some (next, out)) : next.Tame ∧ (net.StepBacked s ↔ net.StepFresh s) :=
    ⟨step_tame tame step, stepBacked_iff tame step⟩
  exact Machine.along_congr_of_run kept tame_initial run

theorem repliesBacked_iff_sample : ∃ last outs, machine.run initial sampleRun = some (last, outs) ∧
    (machine.Along StepBacked initial sampleRun ↔ machine.Along StepFresh initial sampleRun) := by
  have succeeds : (machine.run initial sampleRun).isSome = true := by decide +kernel
  obtain ⟨⟨last, outs⟩, run⟩ := Option.isSome_iff_exists.mp succeeds
  exact ⟨last, outs, run, repliesBacked_iff sampleRun last outs run⟩

/-- Node 0 repairs its route to 1 when node 3 looks for one. -/
def repairedRun : List (ℚ × AodvStep) :=
  [(1, .own 1 (.recv (dataTo 1 2 none 0))), (2, .deliver 0 0), (3, .own 0 (.linkFailed (dataTo 2 1 (some 1) 2))),
    (4, .own 3 (.recv (dataTo 3 1 none 0)))]

theorem repair_answers : ¬∀ (steps : List (ℚ × AodvStep)) (last : AodvNetwork) (outs : List Unit),
    machine.run initial steps = some (last, outs) → machine.Along StepBacked initial steps := by
  intro claimed
  have succeeds : (machine.run initial (repairedRun ++ [(5, .deliver 0 3)])).isSome = true := by decide +kernel
  obtain ⟨⟨last, outs⟩, run⟩ := Option.isSome_iff_exists.mp succeeds
  obtain ⟨mid, before, after, first, second, _⟩ := Machine.run_split run
  have backed : StepBacked mid (5, .deliver 0 3) := ((claimed _ last outs run).right first).head
  have stale : (machine.run initial repairedRun).any (fun result => decide ¬StepFresh result.1 (5, .deliver 0 3)) = true := by decide +kernel
  rw [first] at stale
  obtain ⟨⟨next, out⟩, step, _⟩ := Option.bind_eq_some_iff.mp second
  have tame : mid.Tame := Machine.run_kept (fun _ _ _ _ tame _ step => step_tame tame step) tame_initial
    (Machine.along_trivial machine initial repairedRun) first
  exact of_decide_eq_true stale ((stepBacked_iff tame step).mp backed)

end AodvNetwork

end Ns2
