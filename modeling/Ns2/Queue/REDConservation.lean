import Ns2.Queue.REDRoutines
import Mathlib.Algebra.BigOperators.Group.List.Basic

namespace Ns2

namespace REDQueue

/-- The packets that leave the queue with this answer. -/
def Output.leaving (out : Output) : List Packet := out.returned.toList ++ out.dropped ++ out.edropped

variable {s t last : REDQueue} {lib : Libm} {now u : ℚ} {draws : Draws} {pkt : Packet} {droptype : Droptype} {out : Output} {r : ℕ}

theorem dropEarly_packet (lib : Libm) (s : REDQueue) (u : ℚ) (pkt : Packet) :
    (dropEarly lib s u pkt).2.1 = pkt ∨ (dropEarly lib s u pkt).2.1 = { pkt with ce := true } := by
  unfold dropEarly
  dsimp only
  split_ifs <;> first | exact .inl rfl | exact .inr rfl

theorem judgeEarly_packet (lib : Libm) (s : REDQueue) (u : ℚ) (pkt : Packet) :
    (judgeEarly lib s u pkt).2.1 = pkt ∨ (judgeEarly lib s u pkt).2.1 = { pkt with ce := true } := by
  unfold judgeEarly
  dsimp only
  split_ifs
  · exact .inl rfl
  · exact .inl rfl
  · exact dropEarly_packet lib s u pkt
  · exact dropEarly_packet lib s u pkt
  · exact .inl rfl

/-- The packet that is settled is the one that arrived, but for its mark. -/
theorem judge_packet (lib : Libm) (s : REDQueue) (now : ℚ) (draws : Draws) (pkt : Packet) :
    (judge lib s now draws pkt).2.1 = pkt ∨ (judge lib s now draws pkt).2.1 = { pkt with ce := true } :=
  judgeEarly_packet lib _ draws.early pkt

theorem victim_lt (s : REDQueue) (r : ℕ) (nonempty : s.q ≠ []) : s.victim r < s.q.length := by
  have positive := List.length_pos_of_ne_nil nonempty
  unfold victim
  split_ifs
  · omega
  · exact Nat.mod_lt r positive
  · omega

/-- A queue to which a packet has been added has one to drop. -/
theorem pickPacketToDrop_stored (s : REDQueue) (r : ℕ) (pkt : Packet) :
    ∃ out ∈ s.q ++ [pkt], ({ s with q := s.q ++ [pkt] } : REDQueue).pickPacketToDrop r = some out := by
  have nonempty : s.q ++ [pkt] ≠ [] := List.append_ne_nil_of_right_ne_nil _ (List.cons_ne_nil pkt [])
  have inside := REDQueue.victim_lt { s with q := s.q ++ [pkt] } r nonempty
  exact ⟨_, List.getElem_mem inside, List.getElem?_eq_getElem inside⟩

/-- `remove` always finds the packet that `pickPacketToDrop` picked, so `enque` never aborts. -/
theorem enque_succeeds (lib : Libm) (s : REDQueue) (now : ℚ) (draws : Draws) (pkt : Packet) :
    ∃ t out, enque lib s now draws pkt = some (t, out) := by
  unfold enque
  generalize judge lib s now draws pkt = judged
  obtain ⟨droptype, pkt, s⟩ := judged
  cases droptype with
  | none => exact ⟨_, _, rfl⟩
  | unforced =>
    dsimp only [settle]
    split_ifs <;> exact ⟨_, _, rfl⟩
  | forced =>
    obtain ⟨out, -, picked⟩ := s.pickPacketToDrop_stored draws.victim pkt
    dsimp only [settle]
    rw [picked]
    exact ⟨_, _, rfl⟩

theorem Settled.leaving_le_one (settled : Settled s r pkt t droptype out) : out.leaving.length ≤ 1 := by
  cases settled <;> simp [Output.leaving, Output.quiet]

/-- The packet settled and those in the queue before are those that leave and those in the queue after. -/
theorem Settled.perm (settled : Settled s r pkt t droptype out) : (s.q ++ [pkt]).Perm (out.leaving ++ t.q) := by
  cases settled with
  | edrop target q counted => exact q ▸ List.perm_append_comm
  | drop target q counted => exact q ▸ List.perm_append_comm
  | replace victim picked q counted =>
    rw [q]
    exact List.perm_cons_erase (List.mem_of_getElem? picked)
  | store q counted => exact q ▸ List.Perm.refl _

theorem enque_perm (done : enque lib s now draws pkt = some (t, out)) :
    ((s.q ++ [pkt]).map Packet.uid).Perm ((out.leaving ++ t.q).map Packet.uid) := by
  obtain ⟨-, -, settled⟩ := enque_settled done
  have same : (judge lib s now draws pkt).2.1.uid = pkt.uid := by
    rcases judge_packet lib s now draws pkt with plain | marked
    · rw [plain]
    · rw [marked]
  have q : (judge lib s now draws pkt).2.2.q = s.q := (judge_estimates lib s now draws pkt).q.trans (s.countArrival_queue pkt)
  have moved := settled.perm.map Packet.uid
  rw [q] at moved
  simpa only [List.map_append, List.map_cons, same] using moved

theorem deque_perm (s : REDQueue) (now : ℚ) : s.q = (s.deque now).2.toList ++ (s.deque now).1.q := by
  unfold deque
  split
  · rfl
  · rename_i p q stored
    dsimp only
    split_ifs <;> exact stored

theorem drain_perm (now : ℚ) (calls : ℕ) (s : REDQueue) : s.q = (drain now calls s).2 ++ (drain now calls s).1.q := by
  induction calls generalizing s with
  | zero => rfl
  | succ calls ih =>
    have first := deque_perm s now
    unfold drain
    split
    · rename_i next taken
      rw [taken] at first
      exact first
    · rename_i next p taken
      rw [taken] at first
      dsimp only at first ⊢
      rw [first, List.cons_append, ← ih next]
      rfl

theorem step_perm {i : Input} (taken : step lib s i = some (t, out)) :
    ((s.q ++ i.arrivals).map Packet.uid).Perm ((out.leaving ++ t.q).map Packet.uid) := by
  cases i with
  | enque now draws pkt => exact enque_perm taken
  | deque now =>
    cases Option.some.inj taken
    refine List.Perm.map _ (List.Perm.of_eq ?_)
    simpa [Input.arrivals, Output.leaving, Output.quiet] using s.deque_perm now
  | reset now =>
    cases Option.some.inj taken
    refine List.Perm.map _ (List.Perm.of_eq ?_)
    have drained := drain_perm now (s.q.length + 1) { s with edp := resetEdp lib s, edv := resetEdv (resetEdp lib s) s.edv, idle := true, idletime := now }
    simpa [Input.arrivals, Output.leaving, Output.quiet, reset] using drained
  | report =>
    cases Option.some.inj taken
    exact List.Perm.of_eq (by simp [Input.arrivals, Output.leaving, Output.quiet, report, putDroprate, putThroughputBit, putArrival])

/-- No packet is lost and none is duplicated in a run. -/
theorem run_perm {calls : List Input} {outs : List Output} (run : (machine lib).run s calls = some (last, outs)) :
    ((s.q ++ calls.flatMap Input.arrivals).map Packet.uid).Perm ((outs.flatMap Output.leaving ++ last.q).map Packet.uid) := by
  induction calls generalizing s outs with
  | nil =>
    cases Option.some.inj run
    simp
  | cons i calls ih =>
    obtain ⟨next, taken, rest⟩ := Option.bind_eq_some_iff.mp run
    obtain ⟨final, finished, joined⟩ := Option.bind_eq_some_iff.mp rest
    cases Option.some.inj joined
    have first := (step_perm taken).append_right ((calls.flatMap Input.arrivals).map Packet.uid)
    have onward := (ih finished).append_left (next.2.leaving.map Packet.uid)
    simp only [List.flatMap_cons, List.map_append, List.append_assoc] at first onward ⊢
    exact first.trans onward

/-- The length of a list of packets in the unit in which the queue is measured. -/
def measure (qib : Bool) (q : List Packet) : ℕ := if qib then byteLength q else q.length

/-- What one packet takes. -/
def unit (qib : Bool) (pkt : Packet) : ℕ := if qib then pkt.size else 1

theorem qlen_eq (s : REDQueue) : s.qlen = measure s.qib s.q := rfl

theorem measure_append (qib : Bool) (q : List Packet) (pkt : Packet) : measure qib (q ++ [pkt]) = measure qib q + unit qib pkt := by
  unfold measure unit byteLength
  split_ifs <;> simp

theorem measure_perm {qib : Bool} {q q' : List Packet} (moved : q.Perm q') : measure qib q = measure qib q' := by
  unfold measure byteLength
  split_ifs
  · exact (moved.map Packet.size).sum_eq
  · exact moved.length_eq

theorem measure_erase {qib : Bool} {q : List Packet} {out : Packet} (mem : out ∈ q) :
    measure qib (q.erase out) + unit qib out = measure qib q := by
  rw [← measure_append]
  exact measure_perm ((List.perm_append_singleton out _).trans (List.perm_cons_erase mem).symm)

/-- A packet that finds room in the queue adds itself at most, and one that finds none takes the place of another. -/
theorem Settled.occupancy (settled : Settled s r pkt t droptype out) (qib : t.qib = s.qib) (full : s.limit ≤ s.qlen → droptype = .forced) :
    (s.qlen < s.limit → t.qlen ≤ s.qlen + unit s.qib pkt) ∧ (s.limit ≤ s.qlen →
      ∃ victim, out.dropped = [victim] ∧ victim ∈ s.q ++ [pkt] ∧ t.qlen + unit s.qib victim = s.qlen + unit s.qib pkt) := by
  rw [qlen_eq t, qib, qlen_eq s] at *
  cases settled with
  | edrop target q counted => exact ⟨fun _ => by rw [q]; omega, fun none => Droptype.noConfusion (full none)⟩
  | drop target q counted => exact ⟨fun _ => by rw [q]; omega, fun none => Droptype.noConfusion (full none)⟩
  | store q counted => exact ⟨fun _ => (q ▸ measure_append _ _ _).le, fun none => Droptype.noConfusion (full none)⟩
  | replace victim picked q counted =>
    have member : victim ∈ s.q ++ [pkt] := List.mem_of_getElem? picked
    have after : measure s.qib t.q + unit s.qib victim = measure s.qib s.q + unit s.qib pkt := by
      rw [q, measure_erase member, measure_append]
    exact ⟨fun _ => by omega, fun _ => ⟨victim, rfl, member, after⟩⟩

theorem overrule_full (full : s.limit ≤ s.qlen) : s.overrule u droptype = .forced := by
  unfold overrule
  exact if_pos full

theorem judge_settings (lib : Libm) (s : REDQueue) (now : ℚ) (draws : Draws) (pkt : Packet) :
    Settings s (judge lib s now draws pkt).2.2 ∧ (judge lib s now draws pkt).2.2.q = s.q :=
  ⟨(countArrival_settings s pkt).trans (judge_estimates lib s now draws pkt).settings,
    (judge_estimates lib s now draws pkt).q.trans (s.countArrival_queue pkt)⟩

theorem judge_full (full : s.limit ≤ s.qlen) : (judge lib s now draws pkt).1 = .forced := by
  obtain ⟨settings, q⟩ := judge_settings lib s now draws pkt
  have same : (judge lib s now draws pkt).2.2.limit ≤ (judge lib s now draws pkt).2.2.qlen := by
    rw [settings.limit, settings.qlen q]
    exact full
  exact overrule_full same

theorem enque_occupancy (done : enque lib s now draws pkt = some (t, out)) :
    (s.qlen < s.limit → t.qlen ≤ s.qlen + unit s.qib pkt) ∧ (s.limit ≤ s.qlen → ∃ victim,
      out.dropped = [victim] ∧ (victim.uid = pkt.uid ∨ victim ∈ s.q) ∧ t.qlen + unit s.qib victim = s.qlen + unit s.qib pkt) := by
  obtain ⟨settings, q⟩ := judge_settings lib s now draws pkt
  obtain ⟨kept, -, settled⟩ := enque_settled done
  have occupancy := settled.occupancy (kept.qib.trans settings.qib.symm) fun full =>
    judge_full (by rwa [settings.limit, settings.qlen q] at full)
  rw [settings.limit, settings.qlen q, settings.qib, q] at occupancy
  have same : (judge lib s now draws pkt).2.1.uid = pkt.uid ∧ unit s.qib (judge lib s now draws pkt).2.1 = unit s.qib pkt := by
    rcases judge_packet lib s now draws pkt with plain | marked
    · rw [plain]
      exact ⟨rfl, rfl⟩
    · rw [marked]
      exact ⟨rfl, rfl⟩
  rw [same.2] at occupancy
  refine ⟨occupancy.1, fun full => ?_⟩
  obtain ⟨victim, dropped, member, after⟩ := occupancy.2 full
  refine ⟨victim, dropped, ?_, after⟩
  rcases List.mem_append.mp member with queued | own
  · exact .inr queued
  · exact .inl (List.mem_singleton.mp own ▸ same.1)

theorem deque_none (none : (s.deque now).2 = none) : s.q = [] := by
  cases stored : s.q with
  | nil => rfl
  | cons p q =>
    unfold deque at none
    rw [stored] at none
    dsimp only at none
    split_ifs at none

theorem drain_empty (now : ℚ) {calls : ℕ} {s : REDQueue} (enough : s.q.length < calls) : (drain now calls s).1.q = [] := by
  induction calls generalizing s with
  | zero => exact absurd enough (Nat.not_lt_zero _)
  | succ calls ih =>
    have first := deque_perm s now
    unfold drain
    split
    · rename_i next taken
      have empty := deque_none (congrArg Prod.snd taken)
      rw [taken, empty] at first
      exact (List.append_eq_nil_iff.mp first.symm).2
    · rename_i next p taken
      rw [taken] at first
      rw [first] at enough
      exact ih (Nat.lt_of_succ_lt_succ (by simpa using enough))

theorem reset_empty (lib : Libm) (s : REDQueue) (now : ℚ) : (reset lib s now).1.q = [] := drain_empty now (Nat.lt_succ_self _)

theorem length_le_measure {qib : Bool} {q : List Packet} (positive : ∀ p ∈ q, 1 ≤ unit qib p) : q.length ≤ measure qib q := by
  induction q with
  | nil => exact Nat.zero_le _
  | cons p q ih =>
    obtain ⟨first, rest⟩ := List.forall_mem_cons.mp positive
    have more : measure qib (p :: q) = measure qib q + unit qib p := by
      rw [← measure_append]
      exact measure_perm (List.perm_append_singleton p q).symm
    have onward := ih rest
    rw [List.length_cons]
    omega

theorem measure_le_mul {qib : Bool} {q : List Packet} {most : ℕ} (bounded : ∀ p ∈ q, unit qib p ≤ most) :
    measure qib q ≤ q.length * most := by
  induction q with
  | nil => unfold measure byteLength; split_ifs <;> simp
  | cons p q ih =>
    obtain ⟨first, rest⟩ := List.forall_mem_cons.mp bounded
    have more : measure qib (p :: q) = measure qib q + unit qib p := by
      rw [← measure_append]
      exact measure_perm (List.perm_append_singleton p q).symm
    have onward := ih rest
    rw [List.length_cons, Nat.succ_mul]
    omega

/-- What the packets in the queue take has the property `φ`. -/
structure Units (φ : ℕ → Prop) (qib : Bool) (s : REDQueue) : Prop where
  same : s.qib = qib
  queued : ∀ p ∈ s.q, φ (unit qib p)

/-- What an arriving packet takes has the property `φ`. -/
def Admits (φ : ℕ → Prop) (qib : Bool) (i : Input) : Prop := ∀ p ∈ i.arrivals, φ (unit qib p)

theorem enque_mem (done : enque lib s now draws pkt = some (t, out)) {p : Packet} (mem : p ∈ t.q) :
    p ∈ s.q ∨ p = pkt ∨ p = { pkt with ce := true } := by
  obtain ⟨-, -, settled⟩ := enque_settled done
  have before := settled.perm.symm.subset (List.mem_append_right out.leaving mem)
  rw [(judge_settings lib s now draws pkt).2] at before
  rcases List.mem_append.mp before with queued | own
  · exact .inl queued
  · rw [List.mem_singleton.mp own]
    exact .inr (judge_packet lib s now draws pkt)

theorem Units.step {φ : ℕ → Prop} {qib : Bool} {i : Input} (units : Units φ qib s) (admits : Admits φ qib i)
    (taken : step lib s i = some (t, out)) : Units φ qib t := by
  cases i with
  | enque now draws pkt =>
    refine ⟨(enque_settled taken).1.qib.trans units.same, fun p mem => ?_⟩
    have own : φ (unit qib pkt) := admits pkt (List.mem_singleton_self pkt)
    rcases enque_mem taken mem with queued | rfl | rfl
    · exact units.queued p queued
    · exact own
    · exact own
  | deque now =>
    cases Option.some.inj taken
    refine ⟨(deque_settings s now).qib.trans units.same, fun p mem => units.queued p ?_⟩
    rw [deque_perm s now]
    exact List.mem_append_right _ mem
  | reset now =>
    cases Option.some.inj taken
    refine ⟨(drain_settings now _ _).qib.trans units.same, fun p mem => ?_⟩
    rw [reset_empty] at mem
    exact absurd mem List.not_mem_nil
  | report =>
    cases Option.some.inj taken
    exact ⟨units.same, units.queued⟩

theorem deque_qlen (s : REDQueue) (now : ℚ) : (s.deque now).1.qlen ≤ s.qlen ∧ (s.deque now).1.q.length ≤ s.q.length := by
  have whole := deque_perm s now
  rw [qlen_eq, qlen_eq, (deque_settings s now).qib]
  cases out : (s.deque now).2 with
  | none =>
    rw [out] at whole
    rw [whole]
    exact ⟨le_rfl, le_rfl⟩
  | some p =>
    rw [out] at whole
    have more : measure s.qib s.q = measure s.qib (s.deque now).1.q + unit s.qib p := by
      rw [← measure_append]
      refine measure_perm ?_
      rw [whole]
      exact (List.perm_append_singleton p _).symm
    have longer : s.q.length = (s.deque now).1.q.length + 1 := by
      conv => lhs; rw [whole]
      simp [Nat.add_comm]
    omega

/-- The number of packets in the queue is within the limit. -/
def Packed (s : REDQueue) : Prop := s.q.length ≤ s.limit

theorem Settled.length (settled : Settled s r pkt t droptype out) :
    t.q.length ≤ s.q.length ∨ droptype = .none ∧ t.q.length = s.q.length + 1 := by
  cases settled with
  | edrop target q counted => exact .inl (q ▸ le_rfl)
  | drop target q counted => exact .inl (q ▸ le_rfl)
  | store q counted => exact .inr ⟨rfl, by rw [q, List.length_append, List.length_singleton]⟩
  | replace victim picked q counted =>
    left
    rw [q, List.length_erase_of_mem (List.mem_of_getElem? picked)]
    simp

theorem Packed.step {qib : Bool} {i : Input} (packed : Packed s) (units : Units (1 ≤ ·) qib s)
    (taken : step lib s i = some (t, out)) : Packed t := by
  cases i with
  | enque now draws pkt =>
    obtain ⟨kept, -, settled⟩ := enque_settled taken
    obtain ⟨settings, q⟩ := judge_settings lib s now draws pkt
    unfold Packed at packed ⊢
    rw [kept.limit]
    rcases settled.length with shorter | ⟨stored, longer⟩
    · rw [q] at shorter
      exact shorter.trans packed
    · have room : s.qlen < s.limit := by
        by_contra full
        exact Droptype.noConfusion (stored.symm.trans (judge_full (not_lt.mp full)))
      have few : s.q.length ≤ s.qlen := by
        rw [qlen_eq, units.same]
        exact length_le_measure units.queued
      rw [q] at longer
      omega
  | deque now =>
    cases Option.some.inj taken
    unfold Packed at packed ⊢
    rw [(deque_settings s now).limit]
    exact (deque_qlen s now).2.trans packed
  | reset now =>
    cases Option.some.inj taken
    unfold Packed
    rw [reset_empty]
    exact Nat.zero_le _
  | report =>
    cases Option.some.inj taken
    exact packed

/-- A queue that drops from its tail is over its limit by one packet at most. -/
structure Tail (most : ℕ) (s : REDQueue) : Prop where
  front : s.dropFront = false
  rand : s.dropRand = false
  within : s.qlen ≤ s.limit + most

theorem Settled.tail_qlen (settled : Settled s r pkt t .forced out) (front : s.dropFront = false) (rand : s.dropRand = false)
    (qib : t.qib = s.qib) : t.qlen = s.qlen := by
  cases settled with
  | replace victim picked q counted =>
    have last : victim = pkt := by
      have found : (s.q ++ [pkt])[s.q.length]? = some victim := by
        simpa [pickPacketToDrop, REDQueue.victim, front, rand] using picked
      rw [List.getElem?_concat_length] at found
      exact (Option.some.inj found).symm
    subst last
    have erased : measure s.qib ((s.q ++ [victim]).erase victim) + unit s.qib victim = measure s.qib (s.q ++ [victim]) :=
      measure_erase (List.mem_append_right _ (List.mem_singleton_self victim))
    rw [measure_append] at erased
    rw [qlen_eq t, qib, qlen_eq s, q]
    omega

theorem Tail.step {most : ℕ} {qib : Bool} {i : Input} (tail : Tail most s) (units : Units (· ≤ most) qib s) (admits : Admits (· ≤ most) qib i)
    (taken : step lib s i = some (t, out)) : Tail most t := by
  cases i with
  | enque now draws pkt =>
    obtain ⟨kept, -, settled⟩ := enque_settled taken
    obtain ⟨settings, q⟩ := judge_settings lib s now draws pkt
    refine ⟨kept.dropFront.trans tail.front, kept.dropRand.trans tail.rand, ?_⟩
    rw [kept.limit]
    by_cases full : s.limit ≤ s.qlen
    · rw [judge_full full] at settled
      rw [settled.tail_qlen (settings.dropFront.trans tail.front) (settings.dropRand.trans tail.rand) (kept.qib.trans settings.qib.symm),
        settings.qlen q]
      exact tail.within
    · have grown := (enque_occupancy taken).1 (not_le.mp full)
      have own : unit qib pkt ≤ most := admits pkt (List.mem_singleton_self pkt)
      rw [units.same] at grown
      omega
  | deque now =>
    cases Option.some.inj taken
    have settings := deque_settings s now
    refine ⟨settings.dropFront.trans tail.front, settings.dropRand.trans tail.rand, ?_⟩
    rw [settings.limit]
    exact (deque_qlen s now).1.trans tail.within
  | reset now =>
    cases Option.some.inj taken
    refine ⟨(drain_settings now _ _).dropFront.trans tail.front, (drain_settings now _ _).dropRand.trans tail.rand, ?_⟩
    rw [qlen_eq, reset_empty]
    unfold measure byteLength
    split_ifs <;> exact Nat.zero_le _
  | report =>
    cases Option.some.inj taken
    exact ⟨tail.front, tail.rand, tail.within⟩

theorem step_succeeds (lib : Libm) (s : REDQueue) (i : Input) : ∃ t out, step lib s i = some (t, out) := by
  cases i with
  | enque now draws pkt => exact enque_succeeds lib s now draws pkt
  | deque now => exact ⟨_, _, rfl⟩
  | reset now => exact ⟨_, _, rfl⟩
  | report => exact ⟨_, _, rfl⟩

theorem run_succeeds (lib : Libm) (s : REDQueue) (calls : List Input) : ∃ last outs, (machine lib).run s calls = some (last, outs) := by
  obtain ⟨last, outs, run, -⟩ := Machine.run_invariant (M := machine lib) (P := fun _ _ => True) (I := fun _ => True)
    (fun s i _ _ => let ⟨t, out, taken⟩ := step_succeeds lib s i; ⟨t, out, taken, trivial⟩) trivial (Machine.along_trivial _ s calls)
  exact ⟨last, outs, run⟩

theorem run_units {φ : ℕ → Prop} {calls : List Input} {outs : List Output} (empty : s.q = [])
    (admits : ∀ i ∈ calls, Admits φ s.qib i) (run : (machine lib).run s calls = some (last, outs)) : Units φ s.qib last := by
  refine Machine.run_kept (P := fun _ i => Admits φ s.qib i) (fun s' i next out units admits taken => units.step admits taken) ?_
    (Machine.along_of_forall admits) run
  exact ⟨rfl, fun p mem => absurd (empty ▸ mem) List.not_mem_nil⟩

theorem run_packed {calls : List Input} {outs : List Output} (empty : s.q = []) (admits : ∀ i ∈ calls, Admits (1 ≤ ·) s.qib i)
    (run : (machine lib).run s calls = some (last, outs)) : Packed last := by
  have start : Packed s ∧ Units (1 ≤ ·) s.qib s := by
    refine ⟨?_, rfl, fun p mem => absurd (empty ▸ mem) List.not_mem_nil⟩
    unfold Packed
    rw [empty]
    exact Nat.zero_le _
  refine (Machine.run_kept (P := fun _ i => Admits (1 ≤ ·) s.qib i) (I := fun t => Packed t ∧ Units (1 ≤ ·) s.qib t) ?_ start
    (Machine.along_of_forall admits) run).1
  exact fun s' i next out both admits taken => ⟨both.1.step both.2 taken, both.2.step admits taken⟩

theorem run_tail {calls : List Input} {outs : List Output} {most : ℕ} (empty : s.q = []) (front : s.dropFront = false)
    (rand : s.dropRand = false) (admits : ∀ i ∈ calls, Admits (· ≤ most) s.qib i)
    (run : (machine lib).run s calls = some (last, outs)) : Tail most last := by
  have start : Tail most s ∧ Units (· ≤ most) s.qib s := by
    refine ⟨⟨front, rand, ?_⟩, rfl, fun p mem => absurd (empty ▸ mem) List.not_mem_nil⟩
    rw [qlen_eq, empty]
    unfold measure byteLength
    split_ifs <;> exact Nat.zero_le _
  refine (Machine.run_kept (P := fun _ i => Admits (· ≤ most) s.qib i) (I := fun t => Tail most t ∧ Units (· ≤ most) s.qib t) ?_ start
    (Machine.along_of_forall admits) run).1
  exact fun s' i next out both admits taken => ⟨both.1.step both.2 admits taken, both.2.step admits taken⟩

/-- Runs from an empty queue: no packet is lost or duplicated, every `enque` drops one packet at most, and the queue keeps to
its limit, but for one packet in bytes with drop-tail, and but for the excess of packets over their victims otherwise. -/
theorem run_conserves (lib : Libm) (empty : s.q = []) {calls : List Input} {most : ℕ}
    (sizes : ∀ i ∈ calls, ∀ p ∈ i.arrivals, p.size ≤ most) : ∃ last outs, (machine lib).run s calls = some (last, outs) ∧
      ((calls.flatMap Input.arrivals).map Packet.uid).Perm ((outs.flatMap Output.leaving ++ last.q).map Packet.uid) ∧
      (s.qib = false → last.q.length ≤ last.limit) ∧
      (s.qib = true → s.dropFront = false → s.dropRand = false → byteLength last.q ≤ last.limit + most) ∧
      (s.qib = true → (∀ i ∈ calls, ∀ p ∈ i.arrivals, 0 < p.size) → byteLength last.q ≤ last.limit * most) ∧
      ∀ now draws pkt, ∃ t out, enque lib last now draws pkt = some (t, out) ∧ out.leaving.length ≤ 1 ∧
        (last.qlen < last.limit → t.qlen ≤ last.qlen + unit last.qib pkt) ∧ (last.limit ≤ last.qlen → ∃ victim,
          out.dropped = [victim] ∧ (victim.uid = pkt.uid ∨ victim ∈ last.q) ∧ t.qlen + unit last.qib victim = last.qlen + unit last.qib pkt) := by
  obtain ⟨last, outs, run⟩ := run_succeeds lib s calls
  have moved := run_perm run
  rw [empty, List.nil_append] at moved
  refine ⟨last, outs, run, moved, fun packets => ?_, fun bytes front rand => ?_, fun bytes positive => ?_, fun now draws pkt => ?_⟩
  · refine run_packed empty (fun i mem p arrives => ?_) run
    rw [packets]
    exact le_rfl
  · have admits : ∀ i ∈ calls, Admits (· ≤ most) s.qib i := by
      intro i mem p arrives
      rw [bytes]
      exact sizes i mem p arrives
    have within := (run_tail empty front rand admits run).within
    rwa [qlen_eq, (run_units empty admits run).same, bytes] at within
  · have admits : ∀ i ∈ calls, Admits (· ≤ most) s.qib i := by
      intro i mem p arrives
      rw [bytes]
      exact sizes i mem p arrives
    have few : last.q.length ≤ last.limit := by
      refine run_packed empty (fun i mem p arrives => ?_) run
      rw [bytes]
      exact positive i mem p arrives
    have bound := measure_le_mul (run_units empty admits run).queued
    rw [bytes] at bound
    exact bound.trans (Nat.mul_le_mul_right most few)
  · obtain ⟨t, out, done⟩ := enque_succeeds lib last now draws pkt
    exact ⟨t, out, done, (enque_settled done).2.2.leaving_le_one, enque_occupancy done⟩

/-- A queue in bytes with `limit_` 1 and a mean packet size of 500, dropping from the front. -/
def frontBytes : REDQueue :=
  { make .between 0 0 with
    qlim := 1, dropFront := true, edp.qW := 2 / 1000, edp.thMin := 2500, edp.thMax := 7500, edp.thMinPkts := 5, edp.thMaxPkts := 15 }

def arrival (uid size : ℕ) : Input := .enque 0 ⟨1 / 2, 1 / 2, 0⟩ ⟨uid, size, ptPareto, false, false⟩

theorem run_conserves_sample : ∃ last outs, (machine plainLibm).run frontBytes [arrival 1 200, arrival 2 1500, .deque 1] = some (last, outs) ∧
    byteLength last.q ≤ last.limit * 1500 := by
  have sizes : ∀ i ∈ [arrival 1 200, arrival 2 1500, .deque 1], ∀ p ∈ i.arrivals, p.size ≤ 1500 := by decide
  have empty : frontBytes.q = [] := rfl
  obtain ⟨last, outs, run, -, -, -, bytes, -⟩ := run_conserves plainLibm empty sizes
  exact ⟨last, outs, run, bytes rfl (by decide)⟩

/-- Three small packets fill the queue, and two large ones that take the places of two of them leave 3200 bytes in it,
with a limit of 500 bytes and packets of at most 1500. -/
theorem run_exceeds : ∃ last outs, (machine plainLibm).run frontBytes
      [arrival 1 200, arrival 2 200, arrival 3 200, arrival 4 1500, arrival 5 1500] = some (last, outs) ∧
    ¬byteLength last.q ≤ last.limit + 1500 := by
  obtain ⟨last, outs, run⟩ := run_succeeds plainLibm frontBytes
    [arrival 1 200, arrival 2 200, arrival 3 200, arrival 4 1500, arrival 5 1500]
  have occupied : (((machine plainLibm).run frontBytes
      [arrival 1 200, arrival 2 200, arrival 3 200, arrival 4 1500, arrival 5 1500]).map fun reached =>
        (byteLength reached.1.q, reached.1.limit)) = some (3200, 500) := by
    decide +kernel
  rw [run] at occupied
  obtain ⟨bytes, limit⟩ := Prod.mk.inj (Option.some.inj occupied)
  refine ⟨last, outs, run, ?_⟩
  rw [bytes, limit]
  decide

end REDQueue

end Ns2
