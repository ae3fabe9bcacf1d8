import Ns2.Queue.REDConservation
import Mathlib.Data.List.Count

namespace Ns2

namespace REDQueue

/-- The packets that are counted as arrivals. -/
def Packet.counted (p : Packet) : Bool := p.ptype = ptPareto

/-- The packets that an answer says are lost. -/
def Output.lost (out : Output) : List Packet := out.dropped ++ out.edropped

/-- A packet that `drop` gets is counted exactly if it is of the class of the arrivals. -/
def Packet.accounted (p : Packet) : Prop := p.ptype = ptPareto ∨ p.ptype = ptAck

/-- The drop of this call, if any, is counted as the arrivals are, and does not take a counted packet that was in the queue when
the interval began. -/
def Accounted (lib : Libm) (old : List Packet) (s : REDQueue) : Input → Prop
  | .enque now draws pkt =>
    ((judge lib s now draws pkt).1 = .unforced → if s.deDrop then pkt.ptype ≠ ptPareto else pkt.accounted) ∧
      ((judge lib s now draws pkt).1 = .forced →
        ∀ victim, ({ s with q := s.q ++ [(judge lib s now draws pkt).2.1] } : REDQueue).pickPacketToDrop draws.victim = some victim →
          victim.accounted ∧ (victim.ptype = ptPareto → victim ∉ old))
  | .deque _ => True
  | .reset _ => ∀ p ∈ s.q, p.ptype ≠ ptPareto
  | .report => False

/-- The counted packets in the queue that were not there when the interval began. -/
def fresh (old q : List Packet) : ℕ := q.countP fun p => p.counted && decide (p ∉ old)

variable {s t last : REDQueue} {lib : Libm} {now : ℚ} {draws : Draws} {pkt : Packet} {droptype : Droptype} {out : Output} {r : ℕ}
  {old : List Packet}

theorem fresh_append (old q : List Packet) (p : Packet) : fresh old (q ++ [p]) ≤ fresh old q + [p].countP Packet.counted := by
  unfold fresh
  rw [List.countP_append]
  refine Nat.add_le_add_left (List.countP_mono_left fun x _ both => ?_) _
  exact (Bool.and_eq_true_iff.mp both).1

theorem fresh_erase {q : List Packet} {p : Packet} (mem : p ∈ q) (new : p.ptype = ptPareto → p ∉ old) :
    fresh old (q.erase p) + [p].countP Packet.counted = fresh old q := by
  unfold fresh
  rw [(List.perm_cons_erase mem).countP_eq, List.countP_cons]
  by_cases own : p.ptype = ptPareto
  · simp [Packet.counted, own, new own]
  · simp [Packet.counted, own]

theorem deque_counters (s : REDQueue) (now : ℚ) : (s.deque now).1.pktcntPersLp = s.pktcntPersLp ∧ (s.deque now).1.dropCntPers = s.dropCntPers := by
  unfold deque
  split
  · exact ⟨rfl, rfl⟩
  · dsimp only
    split_ifs <;> exact ⟨rfl, rfl⟩

theorem drain_counters (now : ℚ) (calls : ℕ) (s : REDQueue) :
    (drain now calls s).1.pktcntPersLp = s.pktcntPersLp ∧ (drain now calls s).1.dropCntPers = s.dropCntPers := by
  induction calls generalizing s with
  | zero => exact ⟨rfl, rfl⟩
  | succ calls ih =>
    have first := deque_counters s now
    unfold drain
    split
    · rename_i next taken
      rw [taken] at first
      exact first
    · rename_i next p taken
      rw [taken] at first
      exact ⟨(ih next).1.trans first.1, (ih next).2.trans first.2⟩

/-- What a call that is accounted for adds to the counters: its arrivals and its losses, and no more losses than new packets. -/
structure Counts (old : List Packet) (s t : REDQueue) (arrivals lost : List Packet) : Prop where
  arrived : t.pktcntPersLp = s.pktcntPersLp + arrivals.countP Packet.counted
  dropped : t.dropCntPers = s.dropCntPers + lost.countP Packet.counted
  covered : fresh old t.q + lost.countP Packet.counted ≤ fresh old s.q + arrivals.countP Packet.counted

theorem countP_accounted {p : Packet} (accounted : p.accounted) : [p].countP Packet.counted = if p.ptype ≠ ptAck then 1 else 0 := by
  rcases accounted with pareto | ack
  · rw [pareto]
    simp [Packet.counted, pareto, ptPareto, ptAck]
  · rw [ack]
    simp [Packet.counted, ack, ptPareto, ptAck]

theorem countArrival_counts (s : REDQueue) (pkt : Packet) :
    (s.countArrival pkt).pktcntPersLp = s.pktcntPersLp + [pkt].countP Packet.counted := by
  unfold countArrival
  split_ifs with own <;> simp [Packet.counted, own]

theorem countArrival_dropCntPers (s : REDQueue) (pkt : Packet) : (s.countArrival pkt).dropCntPers = s.dropCntPers := by
  unfold countArrival
  split_ifs <;> rfl

theorem countP_mark {p q : Packet} (same : p.ptype = q.ptype) : [p].countP Packet.counted = [q].countP Packet.counted := by
  simp [Packet.counted, same]

theorem pickPacketToDrop_settings (settings : Settings s t) (q : List Packet) (r : ℕ) :
    ({ t with q := q } : REDQueue).pickPacketToDrop r = ({ s with q := q } : REDQueue).pickPacketToDrop r := by
  unfold pickPacketToDrop victim
  dsimp only
  rw [settings.dropFront, settings.dropRand]

theorem enque_counts (accounted : Accounted lib old s (.enque now draws pkt)) (done : enque lib s now draws pkt = some (t, out)) :
    Counts old s t [pkt] out.lost := by
  obtain ⟨-, arrived, settled⟩ := enque_settled done
  obtain ⟨settings, q⟩ := judge_settings lib s now draws pkt
  obtain ⟨unforced, forced⟩ := accounted
  have before : (judge lib s now draws pkt).2.2.dropCntPers = s.dropCntPers :=
    (judge_estimates lib s now draws pkt).dropCntPers.trans (s.countArrival_dropCntPers pkt)
  have ptype : (judge lib s now draws pkt).2.1.ptype = pkt.ptype := by
    rcases judge_packet lib s now draws pkt with plain | marked
    · rw [plain]
    · rw [marked]
  have own := countP_mark ptype
  generalize (judge lib s now draws pkt).1 = droptype at settled unforced forced
  refine ⟨arrived.trans (s.countArrival_counts pkt), ?_, ?_⟩
  · cases settled with
    | edrop target after counted =>
      have other := unforced rfl
      rw [if_pos (settings.deDrop.symm.trans target)] at other
      rw [counted, before]
      simp [Output.lost, Output.quiet, Packet.counted, ptype, other]
    | drop target after counted =>
      have either := unforced rfl
      rw [if_neg (Bool.eq_false_iff.mp (settings.deDrop.symm.trans target))] at either
      rw [counted, before, ptype, ← countP_accounted either, ← own]
      rfl
    | replace victim picked after counted =>
      rw [q, pickPacketToDrop_settings settings] at picked
      rw [counted, before, ← countP_accounted (forced rfl victim picked).1]
      rfl
    | store after counted =>
      rw [counted, before]
      rfl
  · have grown := fresh_append old s.q (judge lib s now draws pkt).2.1
    rw [own] at grown
    cases settled with
    | edrop target after counted =>
      rw [after, q, ← own]
      exact le_rfl
    | drop target after counted =>
      rw [after, q, ← own]
      exact le_rfl
    | replace victim picked after counted =>
      have member : victim ∈ s.q ++ [(judge lib s now draws pkt).2.1] := q ▸ List.mem_of_getElem? picked
      rw [q, pickPacketToDrop_settings settings] at picked
      rw [after, q]
      exact (fresh_erase member (forced rfl victim picked).2).le.trans grown
    | store after counted =>
      rw [after, q]
      exact grown

theorem step_counts {i : Input} (accounted : Accounted lib old s i) (taken : step lib s i = some (t, out)) :
    Counts old s t i.arrivals out.lost := by
  cases i with
  | enque now draws pkt => exact enque_counts accounted taken
  | deque now =>
    cases Option.some.inj taken
    obtain ⟨arrived, dropped⟩ := deque_counters s now
    refine ⟨arrived, dropped, ?_⟩
    have whole : fresh old s.q = fresh old (s.deque now).2.toList + fresh old (s.deque now).1.q := by
      conv => lhs; rw [deque_perm s now]
      exact List.countP_append
    exact whole ▸ Nat.le_add_left _ _
  | reset now =>
    cases Option.some.inj taken
    have whole := drain_perm now (s.q.length + 1) { s with edp := resetEdp lib s, edv := resetEdv (resetEdp lib s) s.edv, idle := true, idletime := now }
    obtain ⟨arrived, dropped⟩ := drain_counters now (s.q.length + 1)
      { s with edp := resetEdp lib s, edv := resetEdv (resetEdp lib s) s.edv, idle := true, idletime := now }
    have none : ((reset lib s now).2 ++ []).countP Packet.counted = 0 := by
      rw [List.append_nil, List.countP_eq_zero]
      intro p mem own
      exact accounted p (whole ▸ List.mem_append_left _ mem) (of_decide_eq_true own)
    refine ⟨arrived, dropped.trans ?_, ?_⟩
    · exact (congrArg (s.dropCntPers + ·) none).symm
    · rw [reset_empty]
      change 0 + ((reset lib s now).2 ++ []).countP Packet.counted ≤ _
      rw [none]
      exact Nat.zero_le _
  | report => exact absurd accounted id

/-- Over an interval the counters count the arrivals and the losses of one class, and there are no more losses than arrivals. -/
theorem run_counts {calls : List Input} {outs : List Output} (along : (machine lib).Along (Accounted lib old) s calls)
    (run : (machine lib).run s calls = some (last, outs)) : Counts old s last (calls.flatMap Input.arrivals) (outs.flatMap Output.lost) := by
  induction calls generalizing s outs with
  | nil =>
    cases Option.some.inj run
    exact ⟨rfl, rfl, le_rfl⟩
  | cons i calls ih =>
    obtain ⟨next, taken, rest⟩ := Option.bind_eq_some_iff.mp run
    obtain ⟨final, finished, joined⟩ := Option.bind_eq_some_iff.mp rest
    cases Option.some.inj joined
    have first := step_counts along.head taken
    have onward := ih (along.tail taken) finished
    rw [List.flatMap_cons, List.flatMap_cons]
    refine ⟨?_, ?_, ?_⟩
    · rw [onward.arrived, first.arrived, List.countP_append, Nat.add_assoc]
    · rw [onward.dropped, first.dropped, List.countP_append, Nat.add_assoc]
    · have early := first.covered
      have late := onward.covered
      rw [List.countP_append, List.countP_append]
      omega

/-- Between two reports whose calls are all accounted for, the losses that the second reports are the packets lost that are of the
class of the arrivals, and the loss rate is between 0 and 1. -/
theorem interval_lossRate {calls : List Input} {outs : List Output} (along : (machine lib).Along (Accounted lib s.q) s.report.1 calls)
    (run : (machine lib).run s.report.1 calls = some (last, outs)) :
    last.dropCntPers = (outs.flatMap Output.lost).countP Packet.counted ∧
      last.pktcntPersLp = (calls.flatMap Input.arrivals).countP Packet.counted ∧
      0 ≤ last.report.2.droprate ∧ last.report.2.droprate ≤ 1 := by
  have counts := run_counts along run
  have start : s.report.1.dropCntPers = 0 ∧ s.report.1.pktcntPersLp = 0 ∧ s.report.1.q = s.q := ⟨rfl, rfl, rfl⟩
  have arrived := counts.arrived
  have dropped := counts.dropped
  have covered := counts.covered
  rw [start.2.1, Nat.zero_add] at arrived
  rw [start.1, Nat.zero_add] at dropped
  have none : fresh s.q s.q = 0 := by
    refine List.countP_eq_zero.mpr fun p mem both => ?_
    exact of_decide_eq_true (Bool.and_eq_true_iff.mp both).2 mem
  rw [start.2.2, none, Nat.zero_add, ← arrived, ← dropped] at covered
  have fewer : last.dropCntPers ≤ last.pktcntPersLp := (Nat.le_add_left _ _).trans covered
  refine ⟨dropped, arrived, ?_⟩
  change 0 ≤ last.putDroprate.1 ∧ last.putDroprate.1 ≤ 1
  unfold putDroprate
  dsimp only
  split_ifs with some
  · exact ⟨by positivity, div_le_one_of_le₀ (by exact_mod_cast fewer) (Nat.cast_nonneg _)⟩
  · exact ⟨le_rfl, zero_le_one⟩

/-- A queue of one packet. -/
def single : REDQueue := { packets 5 15 with qlim := 1, q := [⟨0, 1000, ptPareto, false, false⟩] }

theorem interval_lossRate_sample : ∃ last outs, (machine plainLibm).run single.report.1 [arrival 1 1000] = some (last, outs) ∧
    last.report.2.droprate ≤ 1 := by
  have forced : (judge plainLibm single.report.1 0 ⟨1 / 2, 1 / 2, 0⟩ ⟨1, 1000, ptPareto, false, false⟩).1 = .forced := by decide +kernel
  have own : (judge plainLibm single.report.1 0 ⟨1 / 2, 1 / 2, 0⟩ ⟨1, 1000, ptPareto, false, false⟩).2.1 = ⟨1, 1000, ptPareto, false, false⟩ := by
    decide +kernel
  have along : (machine plainLibm).Along (Accounted plainLibm single.q) single.report.1 [arrival 1 1000] := by
    refine Machine.along_singleton ⟨fun unforced => absurd (forced.symm.trans unforced) (by decide), fun _ victim picked => ?_⟩
    rw [own] at picked
    cases Option.some.inj picked
    exact ⟨.inl rfl, fun _ => by decide⟩
  obtain ⟨last, outs, run⟩ := run_succeeds plainLibm single.report.1 [arrival 1 1000]
  exact ⟨last, outs, run, (interval_lossRate along run).2.2.2⟩

def tcpArrival (uid : ℕ) : Input := .enque 0 ⟨1 / 2, 1 / 2, 0⟩ ⟨uid, 1000, 0, false, false⟩

/-- Two TCP packets dropped at a full queue count as losses though only the other packet counts as an arrival: the rate is 2. -/
theorem interval_overcounts : ∃ last outs, (machine plainLibm).run (reset plainLibm { packets 5 15 with qlim := 1 } 0).1.report.1
      [arrival 1 1000, tcpArrival 2, tcpArrival 3] = some (last, outs) ∧ (outs.flatMap Output.lost).countP Packet.counted = 0 ∧ last.dropCntPers = 2 ∧ last.report.2.droprate = 2 := by
  obtain ⟨last, outs, run⟩ := run_succeeds plainLibm (reset plainLibm { packets 5 15 with qlim := 1 } 0).1.report.1
    [arrival 1 1000, tcpArrival 2, tcpArrival 3]
  have counted : (((machine plainLibm).run (reset plainLibm { packets 5 15 with qlim := 1 } 0).1.report.1
      [arrival 1 1000, tcpArrival 2, tcpArrival 3]).map fun reached =>
      ((reached.2.flatMap Output.lost).countP Packet.counted, reached.1.dropCntPers, reached.1.report.2.droprate)) = some (0, 2, 2) := by
    decide +kernel
  rw [run] at counted
  obtain ⟨lost, rest⟩ := Prod.mk.inj (Option.some.inj counted)
  obtain ⟨drops, rate⟩ := Prod.mk.inj rest
  exact ⟨last, outs, run, lost, drops, rate⟩

end REDQueue

end Ns2
