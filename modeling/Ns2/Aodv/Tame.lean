import Ns2.Aodv.Network

namespace Ns2

open AODV AodvDiscipline

/-- The hop count is a byte. -/
def AodvBody.Sized : AodvBody → Prop
  | .request rq => rq.hopCount < 2 ^ 8
  | .reply rp => rp.hopCount < 2 ^ 8
  | .error _ | .hello _ | .data _ => True

theorem AodvBody.sized_of_data {body : AodvBody} (data : body.isData = true) : body.Sized := by
  cases body with
  | data numForwards => trivial
  | request rq => cases data
  | reply rp => cases data
  | error unreachable => cases data
  | hello rh => cases data

/-- What holds of an agent in every run. -/
structure AODV.Tame (a : AODV) : Prop where
  hops : ∀ rt ∈ a.rtable, rt.hops < 2 ^ 8
  queued : ∀ q ∈ a.rqueue, q.1.body.isData = true
  distinct : (a.rtable.map AodvRtEntry.dst).Nodup

/-- What a routine keeps in every run. -/
structure AODV.Tamed (a : AODV) (result : AODV × List AodvPacket) : Prop where
  tame : result.1.Tame
  index : result.1.index = a.index
  sized : ∀ p ∈ result.2, p.body.Sized

variable {a b m : AODV} {rt : AodvRtEntry} {p : AodvPacket} {ps out out' : List AodvPacket} {now : ℚ} {d : ℕ} {rq : AodvRequest}
  {rp : AodvReply}

theorem AODV.Tame.found (tame : a.Tame) (found : a.rtLookup d = some rt) : rt.hops < 2 ^ 8 := tame.hops rt (rtLookup_mem found)

theorem AODV.Tame.of_eq (tame : a.Tame) (rtable : b.rtable = a.rtable) (queued : ∀ q ∈ b.rqueue, q.1.body.isData = true) : b.Tame :=
  ⟨rtable ▸ tame.hops, queued, rtable ▸ tame.distinct⟩

/-- A change of the entries one by one. -/
theorem AODV.Tame.map {f : AodvRtEntry → AodvRtEntry} (tame : a.Tame) (dst : ∀ rt, (f rt).dst = rt.dst)
    (hops : ∀ rt ∈ a.rtable, (f rt).hops < 2 ^ 8) : Tame { a with rtable := a.rtable.map f } where
  hops rt' member := by
    obtain ⟨rt, inside, same⟩ := List.mem_map.mp member
    exact same ▸ hops rt inside
  queued := tame.queued
  distinct := by
    have same : (a.rtable.map f).map AodvRtEntry.dst = a.rtable.map AodvRtEntry.dst := by
      rw [List.map_map]
      exact List.map_congr_left fun rt _ => dst rt
    exact same ▸ tame.distinct

theorem AODV.Tame.rtSet (tame : a.Tame) (hops : rt.hops < 2 ^ 8) : (a.rtSet rt).Tame := by
  refine tame.map (fun old => ?_) fun old member => ?_
  · split_ifs with here
    · exact here.symm
    · rfl
  · split_ifs
    · exact hops
    · exact tame.hops old member

theorem AODV.Tame.rtFind (tame : a.Tame) (d : ℕ) : (a.rtFind d).1.Tame ∧ (a.rtFind d).2.hops < 2 ^ 8 ∧ (a.rtFind d).1.index = a.index := by
  unfold AODV.rtFind
  cases found : a.rtLookup d with
  | some rt => exact ⟨tame, tame.found found, rfl⟩
  | none =>
    have fresh : (AodvRtEntry.make d).hops < 2 ^ 8 := (by decide : 255 < 2 ^ 8)
    refine ⟨⟨List.forall_mem_cons.mpr ⟨fresh, tame.hops⟩, tame.queued, ?_⟩, fresh, rfl⟩
    refine List.nodup_cons.mpr ⟨fun member => ?_, tame.distinct⟩
    obtain ⟨rt, inside, same⟩ := List.mem_map.mp member
    have absent := List.find?_eq_none.mp found rt inside
    exact absent (decide_eq_true same)

namespace AODV.Tamed

theorem idle (tame : a.Tame) : Tamed a (a, []) := ⟨tame, rfl, List.forall_mem_nil _⟩

theorem trans (first : Tamed a (m, out)) (second : Tamed m (b, out')) : Tamed a (b, out ++ out') where
  tame := second.tame
  index := second.index.trans first.index
  sized p member := (List.mem_append.mp member).elim (first.sized p) (second.sized p)

/-- After steps that send nothing. -/
theorem after (second : Tamed m (b, out)) (index : m.index = a.index) : Tamed a (b, out) :=
  ⟨second.tame, second.index.trans index, second.sized⟩

end AODV.Tamed

namespace AODV

theorem forward_tamed {dst : Option ℕ} (tame : a.Tame) (sized : p.body.Sized) : Yields False (a.forward now dst p) a.Tamed := by
  unfold forward
  refine .ite (fun _ => .idle tame) fun _ => .ite (fun _ => .idle tame) fun _ => ?_
  cases dst with
  | none =>
    refine .of_asserting False.elim fun _ => ⟨tame, rfl, fun p' member => ?_⟩
    cases List.mem_singleton.mp member
    exact sized
  | some d =>
    refine .bind (.of_exists False.elim) fun rt found => .of_asserting False.elim fun _ => ⟨?_, rfl, fun p' member => ?_⟩
    · have small := tame.found found
      exact tame.rtSet small
    · cases List.mem_singleton.mp member
      exact sized

theorem forwardAll_tamed (tame : a.Tame) (sized : ∀ p ∈ ps, p.body.Sized) : Yields False (a.forwardAll now d ps) a.Tamed := by
  induction ps generalizing a with
  | nil => exact Tamed.idle tame
  | cons p rest ih =>
    obtain ⟨first, others⟩ := List.forall_mem_cons.mp sized
    refine .bind (forward_tamed tame first) ?_
    rintro ⟨b, out⟩ forwarded
    refine .bind (ih forwarded.tame others) ?_
    rintro ⟨c, out'⟩ later
    exact forwarded.trans later

theorem dequeAll_tame (tame : a.Tame) (now : ℚ) (d : ℕ) : (a.dequeAll now d).1.Tame :=
  tame.of_eq rfl fun q member => tame.queued q (List.mem_of_mem_filter (List.mem_of_mem_filter member))

theorem dequeAll_data (tame : a.Tame) (now : ℚ) (d : ℕ) : ∀ p ∈ (a.dequeAll now d).2, p.body.isData = true := by
  intro p member
  obtain ⟨q, inside, same⟩ := List.mem_map.mp member
  exact same ▸ tame.queued q (List.mem_of_mem_filter (List.mem_of_mem_filter inside))

theorem flush_tamed (tame : a.Tame) : Yields False (a.flush now d) a.Tamed := by
  refine .mono (forwardAll_tamed (dequeAll_tame tame now d) fun p member => AodvBody.sized_of_data (dequeAll_data tame now d p member)) ?_
  rintro ⟨b, out⟩ forwarded
  exact .after forwarded rfl

theorem enque_tame (tame : a.Tame) (data : p.body.isData = true) : (a.enque now p).Tame := by
  refine tame.of_eq rfl fun q member => ?_
  rcases List.mem_append.mp member with old | new
  · split_ifs at old
    · exact tame.queued q (List.mem_of_mem_filter (List.mem_of_mem_tail old))
    · exact tame.queued q (List.mem_of_mem_filter old)
  · cases List.mem_singleton.mp new
    exact data

theorem sendRequest_tamed (tame : a.Tame) : Yields False (a.sendRequest now d) a.Tamed := by
  unfold sendRequest
  refine .bind (.of_exists False.elim) fun rt found => ?_
  have hops := tame.found found
  refine .ite (fun _ => .of_asserting False.elim fun _ => .idle tame) fun _ => .ite (fun _ => .idle tame) fun _ => .ite (fun _ => ?_) fun _ => ?_
  · have reset : (a.rtSet { rt with reqTimeout := now + 10, reqCnt := 0 }).Tame := tame.rtSet hops
    exact ⟨dequeAll_tame reset now d, rfl, List.forall_mem_nil _⟩
  · have asked : (a.rtSet (rt.requested now)).Tame := tame.rtSet hops
    refine .of_asserting False.elim fun _ => ⟨asked.of_eq rfl asked.queued, rfl, fun p member => ?_⟩
    cases List.mem_singleton.mp member
    exact (by decide : 1 < 2 ^ 8)

theorem sendError_sized (a : AODV) (unreachable : List (ℕ × ℕ)) : ∀ p ∈ a.sendError unreachable, p.body.Sized := by
  intro p member
  cases List.mem_singleton.mp member
  trivial

theorem rtDown_small (small : rt.hops < 2 ^ 8) : rt.rtDown.hops < 2 ^ 8 := by
  unfold AodvRtEntry.rtDown
  split_ifs
  · exact small
  · exact (by decide : 255 < 2 ^ 8)

theorem handleLinkFailure_tamed {id : ℕ} (tame : a.Tame) : Yields False (a.handleLinkFailure id) a.Tamed := by
  refine .of_asserting False.elim fun _ => ⟨tame.map (afterFailure_dst id) fun rt member => ?_, rfl, ?_⟩
  · have small : rt.raise.hops < 2 ^ 8 := tame.hops rt member
    have kept : ∀ rt', rt'.hops < 2 ^ 8 → (AodvRtEntry.pcDelete rt' id).hops < 2 ^ 8 := fun _ held => held
    refine kept _ ?_
    split_ifs
    · exact rtDown_small small
    · exact small
  · dsimp only
    split_ifs
    · exact List.forall_mem_nil _
    · exact sendError_sized a _

theorem nbDelete_tamed {id : ℕ} (tame : a.Tame) : Yields False (a.nbDelete id) a.Tamed := by
  have changed : Tame { a.neighborsChanged with nbhead := a.nbhead.eraseP (·.addr = id) } := tame.of_eq rfl tame.queued
  refine .of_asserting False.elim fun _ => .mono (handleLinkFailure_tamed changed) ?_
  rintro ⟨b, out⟩ failed
  exact .after failed rfl

theorem nbDeleteAll_tamed {ids : List ℕ} (tame : a.Tame) : Yields False (a.nbDeleteAll ids) a.Tamed := by
  induction ids generalizing a with
  | nil => exact Tamed.idle tame
  | cons id rest ih =>
    refine .bind (nbDelete_tamed tame) ?_
    rintro ⟨b, out⟩ failed
    refine .bind (ih failed.tame) ?_
    rintro ⟨c, out'⟩ later
    exact failed.trans later

theorem rtLlFailed_tamed (tame : a.Tame) : Yields False (a.rtLlFailed now p) a.Tamed := by
  unfold rtLlFailed
  split
  · rename_i numForwards daddr body towards
    cases found : a.rtLookup daddr with
    | none => exact Tamed.idle tame
    | some rt =>
      refine .ite (fun _ => ?_) fun _ => nbDelete_tamed tame
      have small := tame.found found
      have queued : (a.enque now p).Tame := enque_tame tame (by rw [body]; rfl)
      have marked : ((a.enque now p).rtSet { rt with flags := .inRepair }).Tame := queued.rtSet small
      refine .mono (sendRequest_tamed marked) ?_
      rintro ⟨b, out⟩ sent
      exact .after sent rfl
  · exact Tamed.idle tame

theorem localRepairTimeout_tamed (tame : a.Tame) : Tamed a (a.localRepairTimeout d, []) := by
  unfold localRepairTimeout
  cases found : a.rtLookup d with
  | none => exact .idle tame
  | some rt =>
    dsimp only
    split_ifs
    · exact ⟨tame.rtSet (rtDown_small (tame.found found)), rfl, List.forall_mem_nil _⟩
    · exact .idle tame

theorem rtResolve_tamed (tame : a.Tame) (data : p.body.isData = true) : Yields False (a.rtResolve now d p) a.Tamed := by
  unfold rtResolve
  obtain ⟨looked, small, index⟩ := tame.rtFind d
  generalize a.rtFind d = entry at looked small index
  obtain ⟨m, rt⟩ := entry
  have later {routine : Option (AODV × List AodvPacket)} (tamed : Yields False routine m.Tamed) : Yields False routine a.Tamed :=
    .mono tamed fun result held => .after held index
  have queued : (m.enque now p).Tame := enque_tame looked data
  refine .ite (fun _ => .of_asserting False.elim fun _ => later (forward_tamed looked (AodvBody.sized_of_data data))) fun _ => ?_
  refine .ite (fun _ => later ?_) fun _ => .ite (fun _ => ?_) fun _ => .of_asserting False.elim fun _ => ?_
  · refine .mono (sendRequest_tamed queued) ?_
    rintro ⟨b, out⟩ sent
    exact .after sent rfl
  · exact ⟨queued, index, List.forall_mem_nil _⟩
  · exact ⟨looked, index, sendError_sized m _⟩

theorem recvData_tamed {numForwards : ℤ} (tame : a.Tame) (data : p.body.isData = true) : Yields False (a.recvData now p numForwards) a.Tamed := by
  unfold recvData
  refine .ite (fun _ => .ite (fun _ => ?_) fun _ => .idle tame) fun _ => .ite (fun _ => .idle tame) fun _ => ?_
  · generalize made : (if p.daddr = none then p else { p with ttl := 30 }) = p'
    have data' : p'.body.isData = true := by
      rw [← made]
      split_ifs <;> exact data
    dsimp only
    split
    · exact rtResolve_tamed tame data'
    · exact forward_tamed tame (AodvBody.sized_of_data data')
  · dsimp only
    split
    · exact rtResolve_tamed tame data
    · exact forward_tamed tame (AodvBody.sized_of_data data)

theorem purgeEntry_tamed (tame : a.Tame) : Yields False (a.purgeEntry now d) a.Tamed := by
  refine .bind (.of_exists False.elim) fun rt found => ?_
  refine .ite (fun _ => .of_asserting False.elim fun _ => .of_asserting False.elim fun _ => ?_) fun _ => .ite (fun _ => ?_) fun _ => ?_
  · have small := tame.found found
    have small : rt.raise.rtDown.hops < 2 ^ 8 := rtDown_small small
    exact ⟨(dequeAll_tame tame now d).rtSet small, rfl, List.forall_mem_nil _⟩
  · exact .of_asserting False.elim fun _ => flush_tamed tame
  · exact .ite (fun _ => sendRequest_tamed tame) fun _ => .idle tame

theorem purgeEntries_tamed {ds : List ℕ} (tame : a.Tame) : Yields False (a.purgeEntries now ds) a.Tamed := by
  induction ds generalizing a with
  | nil => exact Tamed.idle tame
  | cons d rest ih =>
    refine .bind (purgeEntry_tamed tame) ?_
    rintro ⟨b, out⟩ purged
    refine .bind (ih purged.tame) ?_
    rintro ⟨c, out'⟩ later
    exact purged.trans later

theorem reverseRoute_tamed {saddr : ℕ} (tame : a.Tame) (sized : rq.hopCount < 2 ^ 8) : Yields False (a.reverseRoute now saddr rq) a.Tamed := by
  unfold reverseRoute
  obtain ⟨looked, small, index⟩ := tame.rtFind rq.src
  generalize a.rtFind rq.src = entry at looked small index
  obtain ⟨m, rt0⟩ := entry
  dsimp only at looked small index ⊢
  refine .ite (fun _ => ?_) fun _ => ?_
  · generalize taken : (if (_ : ℚ) > _ then _ else _ : AodvRtEntry) = rt
    have hops : rt.hops < 2 ^ 8 := by
      subst taken
      split_ifs <;> exact sized
    refine .of_asserting False.elim fun _ => .of_asserting False.elim fun _ => .mono (flush_tamed (looked.rtSet hops)) ?_
    rintro ⟨b, out⟩ flushed
    exact .after flushed index
  · exact ⟨looked.rtSet small, index, List.forall_mem_nil _⟩

theorem sendReply_sized {ipdst hopCount rpdst rpseq : ℕ} {lifetime timestamp : ℚ} :
    Yields False (a.sendReply ipdst hopCount rpdst rpseq lifetime timestamp) fun sent => ∀ p ∈ sent, p.body.Sized := by
  refine .bind (.of_exists False.elim) fun rt _ => Yields.some fun p member => ?_
  cases List.mem_singleton.mp member
  exact Nat.mod_lt _ (by decide)

theorem pcInsert_hops (rt : AodvRtEntry) (id : ℕ) : (rt.pcInsert id).hops = rt.hops := (pcInsert_same rt id).hops

theorem answerRequest_tamed (tame : a.Tame) : Yields False (a.answerRequest now p rq) a.Tamed := by
  unfold answerRequest
  have next : (rq.hopCount + 1) % 2 ^ 8 < 2 ^ 8 := Nat.mod_lt _ (by decide)
  refine .ite (fun _ => ?_) fun _ => ?_
  · exact .map sendReply_sized fun sent sized => ⟨tame.of_eq rfl tame.queued, rfl, sized⟩
  · cases found : a.rtLookup rq.dst with
    | none => exact forward_tamed tame next
    | some rt =>
      refine .ite (fun _ => ?_) fun _ => forward_tamed tame next
      have small := tame.found found
      refine .bind sendReply_sized fun sent sized => .bind (.of_exists False.elim) fun rt0 _ => ?_
      have marked : (a.rtSet (rt.pcInsert rt0.nexthop)).Tame := tame.rtSet (by rwa [pcInsert_hops])
      refine .bind (.of_exists False.elim) fun rt' _ => .bind (.of_exists False.elim) fun rt0' found0 => Yields.some ⟨?_, rfl, sized⟩
      have small0 := marked.found found0
      exact marked.rtSet (by rwa [pcInsert_hops])

theorem recvRequest_tamed (tame : a.Tame) (sized : rq.hopCount < 2 ^ 8) : Yields False (a.recvRequest now p rq) a.Tamed := by
  unfold recvRequest
  refine .ite (fun _ => .idle tame) fun _ => .ite (fun _ => .idle tame) fun _ => ?_
  have noted : (a.idInsert now rq.src rq.bcastId).Tame := tame.of_eq rfl tame.queued
  refine .bind (reverseRoute_tamed noted sized) ?_
  rintro ⟨m, out⟩ reversed
  refine .bind (answerRequest_tamed reversed.tame) ?_
  rintro ⟨b, out'⟩ answered
  have whole := reversed.trans answered
  exact whole.after rfl

theorem passReply_tamed (tame : a.Tame) : Yields False (a.passReply now p rp) a.Tamed := by
  unfold passReply
  cases p.daddr.bind a.rtLookup with
  | none => exact Tamed.idle tame
  | some rt0 =>
    refine .ite (fun _ => .of_asserting False.elim fun _ => ?_) fun _ => .idle tame
    have next : (rp.hopCount + 1) % 2 ^ 8 < 2 ^ 8 := Nat.mod_lt _ (by decide)
    refine .bind (forward_tamed tame next) ?_
    rintro ⟨m, sent⟩ forwarded
    refine .bind (.of_exists False.elim) fun rt found => Yields.some ⟨?_, forwarded.index, forwarded.sized⟩
    have small := forwarded.tame.found found
    exact forwarded.tame.rtSet (by rwa [pcInsert_hops])

theorem recvReply_tamed (tame : a.Tame) (sized : rp.hopCount < 2 ^ 8) : Yields False (a.recvReply now p rp) a.Tamed := by
  unfold recvReply
  obtain ⟨looked, small, index⟩ := tame.rtFind rp.dst
  generalize a.rtFind rp.dst = entry at looked small index
  obtain ⟨m, old⟩ := entry
  dsimp only at looked small index ⊢
  refine .ite (fun _ => ?_) fun _ => ⟨looked, index, List.forall_mem_nil _⟩
  generalize taken : (if p.daddr = some m.index then _ else _ : AodvRtEntry) = rt
  have hops : rt.hops < 2 ^ 8 := by
    subst taken
    split_ifs <;> exact sized
  have changed : (m.rtSet rt).Tame := looked.rtSet hops
  have finish : ∀ result, Tamed (m.rtSet rt) result → Yields False
      (if p.daddr = some result.1.index then some result
        else do
          let others ← result.1.passReply now p rp
          return (others.1, result.2 ++ others.2)) a.Tamed := by
    rintro ⟨b, out⟩ flushed
    refine .ite (fun _ => .after flushed index) fun _ => .bind (passReply_tamed flushed.tame) ?_
    rintro ⟨c, out'⟩ passed
    exact Yields.some (.after (flushed.trans passed) index)
  exact .ite (fun _ => .bind (.of_asserting False.elim fun _ => flush_tamed changed) finish)
    fun _ => .bind (Yields.some ⟨dequeAll_tame changed now rp.dst, rfl, List.forall_mem_nil _⟩) finish

theorem errorEntry_tamed {saddr dst seqno : ℕ} (tame : a.Tame) :
    Yields False (a.errorEntry saddr dst seqno) fun result => Tamed a (result.1, []) := by
  unfold errorEntry
  cases found : a.rtLookup dst with
  | none => exact Tamed.idle tame
  | some rt =>
    refine .ite (fun _ => .of_asserting False.elim fun _ => .of_asserting False.elim fun _ => ?_) fun _ => .idle tame
    have small := tame.found found
    have small : { rt with seqno := seqno }.rtDown.hops < 2 ^ 8 := rtDown_small small
    exact .ite (fun _ => ⟨tame.rtSet small, rfl, List.forall_mem_nil _⟩) fun _ => ⟨tame.rtSet small, rfl, List.forall_mem_nil _⟩

theorem errorEntries_tamed {saddr : ℕ} {unreachable : List (ℕ × ℕ)} (tame : a.Tame) :
    Yields False (a.errorEntries saddr unreachable) fun result => Tamed a (result.1, []) := by
  induction unreachable generalizing a with
  | nil => exact Tamed.idle tame
  | cons lost rest ih =>
    refine .bind (errorEntry_tamed tame) ?_
    rintro ⟨m, report⟩ first
    refine .bind (ih first.tame) ?_
    rintro ⟨b, report'⟩ later
    exact first.trans later

theorem recvError_tamed {saddr : ℕ} {unreachable : List (ℕ × ℕ)} (tame : a.Tame) : Yields False (a.recvError saddr unreachable) a.Tamed := by
  refine .map (errorEntries_tamed tame) ?_
  rintro ⟨b, report⟩ reported
  refine ⟨reported.tame, reported.index, ?_⟩
  dsimp only
  split_ifs
  · exact List.forall_mem_nil _
  · exact sendError_sized b report

theorem recvHello_tamed {id : ℕ} (tame : a.Tame) : Yields False (a.recvHello now id) fun b => Tamed a (b, []) := by
  refine .ite (fun _ => ⟨tame.of_eq rfl tame.queued, rfl, List.forall_mem_nil _⟩) fun _ => .of_asserting False.elim fun _ => ?_
  exact ⟨tame.of_eq rfl tame.queued, rfl, List.forall_mem_nil _⟩

theorem recv_tamed (tame : a.Tame) (sized : p.body.Sized) : Yields False (a.recv now p) a.Tamed := by
  unfold recv
  cases body : p.body with
  | request rq => exact recvRequest_tamed tame (by rw [body] at sized; exact sized)
  | reply rp => exact recvReply_tamed tame (by rw [body] at sized; exact sized)
  | error unreachable => exact recvError_tamed tame
  | hello rh => exact .map (recvHello_tamed tame) fun _ tamed => tamed
  | data numForwards => exact recvData_tamed tame (by rw [body]; rfl)

theorem handle_tamed {event : Event} (tame : a.Tame) (sized : ∀ p, event = .recv p → p.body.Sized) :
    Yields False (a.handle now event) a.Tamed := by
  cases event with
  | recv p => exact recv_tamed tame (sized p rfl)
  | linkFailed p => exact rtLlFailed_tamed tame
  | broadcastTimer => exact ⟨tame.of_eq rfl tame.queued, rfl, List.forall_mem_nil _⟩
  | helloTimer =>
    refine ⟨tame, rfl, fun p member => ?_⟩
    cases List.mem_singleton.mp member
    trivial
  | neighborTimer => exact nbDeleteAll_tamed tame
  | routeCacheTimer => exact purgeEntries_tamed tame
  | localRepairTimer daddr => exact localRepairTimeout_tamed tame

end AODV

namespace AodvNetwork

/-- All agents are tame, and the packets in the air have hop counts that fit. -/
structure Tame (net : AodvNetwork) : Prop where
  index : ∀ i, (net.node i).index = i
  nodes : ∀ i, (net.node i).Tame
  sent : ∀ p ∈ net.sent, p.body.Sized

variable {net next : AodvNetwork} {i : ℕ} {s : ℚ × AodvStep} {out : Unit}

theorem tame_initial : Tame initial where
  index _ := rfl
  nodes _ := ⟨List.forall_mem_nil _, List.forall_mem_nil _, List.nodup_nil⟩
  sent := List.forall_mem_nil _

theorem Tame.event (tame : net.Tame) {step : AodvStep} (happens : net.event step = some (i, .recv p)) : p.body.Sized :=
  (event_recv happens).elim (tame.sent p) AodvBody.sized_of_data

theorem step_tame (tame : net.Tame) (step : machine.step net s = some (next, out)) : next.Tame := by
  unfold machine at step
  dsimp only at step
  cases happens : net.event s.2 with
  | none =>
    rw [happens] at step
    cases Option.some.inj step
    exact tame
  | some what =>
    obtain ⟨i, event⟩ := what
    rw [happens] at step
    obtain ⟨result, handled, same⟩ := Option.map_eq_some_iff.mp step
    cases same
    have tamed : (net.node i).Tamed result := (handle_tamed (tame.nodes i) fun p received => tame.event (received ▸ happens)).of_eq_some handled
    refine ⟨fun j => ?_, fun j => ?_, fun p member => (List.mem_append.mp member).elim (tame.sent p) (tamed.sized p)⟩
    · by_cases here : j = i
      · rw [here, after_node_self]
        exact tamed.index.trans (tame.index i)
      · rw [after_node_other here]
        exact tame.index j
    · by_cases here : j = i
      · rw [here, after_node_self]
        exact tamed.tame
      · rw [after_node_other here]
        exact tame.nodes j

end AodvNetwork

end Ns2
