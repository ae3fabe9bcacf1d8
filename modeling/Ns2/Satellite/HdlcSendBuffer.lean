import Ns2.Satellite.HdlcRoutines
import Mathlib.Data.List.Nodup
import Mathlib.Data.List.Range

namespace Ns2

namespace HDLC

/-- The buffer has the accepted packets above the highest acknowledgement. -/
structure Held (a : ARQstate α) (accepted : List (Packet α)) : Prop where
  numbers : accepted.map Packet.sendSeqno = (List.range accepted.length).map fun i : ℕ => (i : ℤ)
  seqno : a.seqno = accepted.length
  low : -1 ≤ a.highestAck
  high : a.highestAck < a.seqno
  buffer : a.sendBuf = accepted.filter fun p => a.highestAck < p.sendSeqno

/-- The routine has not to do with the sending part of the state. -/
structure SameSender (w w' : Work α) : Prop where
  seqno : w'.a.seqno = w.a.seqno
  highestAck : w'.a.highestAck = w.a.highestAck
  sendBuf : w'.a.sendBuf = w.a.sendBuf
  accepted : w'.accepted = w.accepted

/-- The number that the input acknowledges. -/
def Input.acks : Input α → Option ℤ
  | .incoming _ false (.i k _) => if k > -1 then some k else none
  | .incoming _ false (.s k .rr) => some k
  | _ => none

/-- An acknowledgement is for the packet after those that are acknowledged, or for none that was accepted. -/
def AcksNext (c : Connection α) (input : Input α) : Prop :=
  ∀ k, input.acks = some k → k ≤ (c.work input).a.highestAck + 2 ∨ (c.work input).a.seqno < k

variable {α : Type*} {config : Config} {w w' w'' : Work α} {a a' : ARQstate α} {p : Packet α} {accepted : List (Packet α)} {k : ℤ}

theorem SameSender.refl (w : Work α) : SameSender w w := ⟨rfl, rfl, rfl, rfl⟩

theorem SameSender.trans (first : SameSender w w') (second : SameSender w' w'') : SameSender w w'' :=
  ⟨second.seqno.trans first.seqno, second.highestAck.trans first.highestAck, second.sendBuf.trans first.sendBuf,
    second.accepted.trans first.accepted⟩

theorem Sends.sameSender (sends : Sends config w w') : SameSender w w' := by
  obtain ⟨g, more, rfl, _⟩ := sends
  exact ⟨rfl, rfl, rfl, rfl⟩

theorem noteMaxseen_sameSender (p : Packet α) (w : Work α) : SameSender w (noteMaxseen p w) := by
  unfold noteMaxseen
  split_ifs <;> exact ⟨rfl, rfl, rfl, rfl⟩

theorem deliverFrom_sameSender (fuel : ℕ) (w : Work α) : SameSender w (deliverFrom fuel w) := by
  induction fuel generalizing w with
  | zero => exact .refl w
  | succ fuel ih =>
    rw [deliverFrom]
    split
    · exact .refl w
    · have next := ih { w with
          a.seen := Function.update w.a.seen (slot w.a.nextpkt) none
          a.nextpkt := w.a.nextpkt + 1
          up := w.up ++ [‹Packet α›] }
      exact ⟨next.seqno, next.highestAck, next.sendBuf, next.accepted⟩

theorem recorded_sameSender (p : Packet α) (w : Work α) : SameSender w (w.recorded p) := by
  have delivered := deliverFrom_sameSender mws.toNat { w with a.seen := Function.update w.a.seen (slot p.sendSeqno) (some p) }
  exact ⟨delivered.seqno, delivered.highestAck, delivered.sendBuf, delivered.accepted⟩

theorem receive_sameSender (done : receive config p w = some w') : SameSender w w' := by
  unfold receive at done
  split_ifs at done
  · cases done
    rcases selectiveRepeatMode_cases config p w with sends | ⟨_, _, sends⟩
    · exact (noteMaxseen_sameSender p w).trans sends.sameSender
    · exact ((noteMaxseen_sameSender p w).trans (recorded_sameSender ..)).trans sends.sameSender
  · rcases goBackNMode_cases done with ⟨_, sends⟩ | ⟨_, _, rfl⟩ | ⟨_, sends⟩
    · have same := sends.sameSender
      exact ⟨same.seqno, same.highestAck, same.sendBuf, same.accepted⟩
    · exact ⟨rfl, rfl, rfl, rfl⟩
    · exact sends.sameSender

theorem Held.same (held : Held w.a accepted) (same : SameSender w w') : Held w'.a accepted where
  numbers := held.numbers
  seqno := same.seqno.trans held.seqno
  low := same.highestAck ▸ held.low
  high := same.highestAck ▸ same.seqno ▸ held.high
  buffer := by rw [same.sendBuf, same.highestAck, held.buffer]

theorem held_newEntry (unset : ℤ) : Held (newEntry unset : ARQstate α) [] := ⟨rfl, rfl, le_rfl, (by decide : (-1 : ℤ) < 0), rfl⟩

theorem Held.number (held : Held a accepted) (mem : p ∈ accepted) : 0 ≤ p.sendSeqno ∧ p.sendSeqno < a.seqno := by
  have number := List.mem_map_of_mem (f := Packet.sendSeqno) mem
  rw [held.numbers] at number
  obtain ⟨i, below, same⟩ := List.mem_map.mp number
  have small := List.mem_range.mp below
  have length := held.seqno
  omega

theorem length_filter_above {h : ℤ} (low : -1 ≤ h) (n : ℕ) :
    (((List.range n).map fun i : ℕ => (i : ℤ)).filter fun x => h < x).length = n - (h + 1).toNat := by
  induction n with
  | zero => simp
  | succ n ih =>
    rw [List.range_succ, List.map_append, List.filter_append, List.length_append, ih]
    by_cases inside : h < n <;> simp [inside] <;> omega

/-- The room that the buffer takes. -/
theorem Held.length (held : Held a accepted) : (a.sendBuf.length : ℤ) = a.seqno - (a.highestAck + 1) := by
  have same : a.sendBuf.map Packet.sendSeqno = ((List.range accepted.length).map fun i : ℕ => (i : ℤ)).filter fun n => a.highestAck < n := by
    rw [held.buffer, ← held.numbers, List.filter_map]
    rfl
  have count := congrArg List.length same
  rw [List.length_map, length_filter_above held.low] at count
  have low := held.low
  have high := held.high
  have seqno := held.seqno
  omega

theorem Held.nodup (held : Held a accepted) : (accepted.map Packet.sendSeqno).Nodup := by
  rw [held.numbers]
  exact List.nodup_range.map fun _ _ => Int.ofNat.inj

/-- Numbers occur once, so `remove` takes out all packets with its number. -/
theorem remove_filter {l : List (Packet α)} (nodup : (l.map Packet.sendSeqno).Nodup) (f : Packet α → Bool) (n : ℤ) :
    remove (l.filter f) n = l.filter fun p => f p && decide (p.sendSeqno ≠ n) := by
  induction l with
  | nil => rfl
  | cons p l ih =>
    rw [List.map_cons, List.nodup_cons] at nodup
    have rest := ih nodup.2
    by_cases kept : f p
    · by_cases hit : p.sendSeqno = n
      · have others : ∀ q ∈ l, q.sendSeqno ≠ n := fun q mem same => nodup.1 (hit.trans same.symm ▸ List.mem_map_of_mem mem)
        rw [List.filter_cons_of_pos kept, remove, List.eraseP_cons, decide_eq_true hit, cond_true,
          List.filter_cons_of_neg (by simp [hit])]
        refine List.filter_congr fun q mem => ?_
        simp [others q mem]
      · rw [List.filter_cons_of_pos kept, remove, List.eraseP_cons, decide_eq_false hit, cond_false, ← remove, rest,
          List.filter_cons_of_pos (by simp [kept, hit])]
    · rw [List.filter_cons_of_neg kept, rest, List.filter_cons_of_neg (by simp [kept])]

theorem Held.accept (held : Held w.a accepted) (data : α) : ∃ new, (inSendBuffer config data w).accepted = w.accepted ++ new ∧
    Held (inSendBuffer config data w).a (accepted ++ new) := by
  unfold inSendBuffer
  split_ifs
  · exact ⟨[], by simp, by simpa using held⟩
  · refine ⟨[⟨w.a.seqno, data⟩], rfl, ?_, ?_, held.low, ?_, ?_⟩
    · rw [List.map_append, held.numbers, List.length_append, List.length_singleton, List.range_succ, List.map_append, held.seqno]
      rfl
    · have length := held.seqno
      simp only [List.length_append, List.length_singleton]
      omega
    · have high := held.high
      dsimp only
      omega
    · have high := held.high
      rw [List.filter_append, ← held.buffer, List.filter_cons_of_pos (by simpa using high)]
      rfl

theorem Held.acknowledged (held : Held a accepted) (next : k ≤ a.highestAck + 2 ∨ a.seqno < k) : Held (a.acknowledged k) accepted := by
  unfold ARQstate.acknowledged
  split_ifs with new
  · obtain ⟨above, found⟩ := new
    obtain ⟨p, mem, same⟩ := getPkt_isSome.mp found
    rw [held.buffer] at mem
    have inside := held.number (List.mem_filter.mp mem).1
    have turn : k - 1 = a.highestAck + 1 := by omega
    have low := held.low
    refine ⟨held.numbers, held.seqno, ?_, ?_, ?_⟩
    · dsimp only
      omega
    · dsimp only
      omega
    · dsimp only
      rw [held.buffer, remove_filter held.nodup]
      refine List.filter_congr fun q _ => ?_
      rw [Bool.eq_iff_iff]
      simp only [Bool.and_eq_true, decide_eq_true_eq]
      omega
  · exact held

theorem Held.piggyback {rseq : ℤ} (held : Held w.a accepted) (next : rseq > -1 → rseq ≤ w.a.highestAck + 2 ∨ w.a.seqno < rseq) :
    Held (w.piggyback rseq).a accepted := by
  unfold Work.piggyback
  split_ifs with valid
  · exact held.acknowledged (next valid)
  · exact held

theorem piggyback_accepted (rseq : ℤ) (w : Work α) : (w.piggyback rseq).accepted = w.accepted := by
  unfold Work.piggyback
  split_ifs <;> rfl

theorem Held.turn {input : Input α} (held : Held w.a accepted)
    (next : ∀ k, input.acks = some k → k ≤ w.a.highestAck + 2 ∨ w.a.seqno < k) (turn : Turn config w input w') :
    ∃ new, w'.accepted = w.accepted ++ new ∧ Held w'.a (accepted ++ new) := by
  cases turn with
  | sends sends =>
    have same := sends.sameSender
    exact ⟨[], by simp [same.accepted], by simpa using held.same same⟩
  | @outgoing _ data w₁ _ before sends =>
    obtain ⟨new, stored, held'⟩ : ∃ new, (inSendBuffer config data w₁).accepted = w₁.accepted ++ new ∧ Held _ (accepted ++ new) :=
      (held.same before.sameSender).accept data
    exact ⟨new, by rw [sends.sameSender.accepted, stored, before.sameSender.accepted], held'.same sends.sameSender⟩
  | @acknowledged k _ _ sends =>
    have same := sends.sameSender
    have acked : Held (w.acknowledged k).a accepted := held.acknowledged (next k rfl)
    exact ⟨[], by simp [same.accepted, Work.acknowledged], by simpa using acked.same same⟩
  | resends _ found => exact ⟨[], by simp [output, Work.send], by
      rw [List.append_nil]
      exact held.same ⟨rfl, rfl, rfl, rfl⟩⟩
  | @receives rseq _ p _ _ _ _ before received sends =>
    have acked : Held (w.piggyback rseq).a accepted := held.piggyback fun valid => next rseq (if_pos valid)
    have opened : Held (Work.opened p _).a accepted := (acked.same before.sameSender).same ⟨rfl, rfl, rfl, rfl⟩
    have got := receive_sameSender received
    refine ⟨[], ?_, by simpa using (opened.same got).same sends.sameSender⟩
    rw [List.append_nil, sends.sameSender.accepted, got.accepted]
    exact before.sameSender.accepted.trans (piggyback_accepted ..)

/-- The packets that were accepted for a next hop since its state was made. -/
def history (hop : ℤ) (outs : List (ℤ × Output α)) : List (Packet α) :=
  outs.foldl (fun accepted out => if out.1 = hop then if out.2.reset then [] else accepted ++ out.2.accepted else accepted) []

/-- What the station has for one next hop. -/
def Station.heldFor (station : Station α) (outs : List (ℤ × Output α)) : Prop :=
  ∀ hop, Held ((station.states hop).getD (newEntry 0)) (history hop outs)

theorem Held.stepped {c : Connection α} {input : Input α} {next : Connection α × Output α}
    (held : Held (c.state.getD (newEntry 0)) accepted) (acks : AcksNext c input) (stepped : Stepped config c input next) :
    Held (next.1.state.getD (newEntry 0)) (if next.2.reset then [] else accepted ++ next.2.accepted) := by
  cases stepped with
  | reset state out _ =>
    rw [out]
    rcases state with none | made
    · rw [none]
      exact held_newEntry 0
    · rw [made]
      exact held_newEntry _
  | idle => simpa using held
  | turn turn =>
    have start : Held (c.work input).a accepted := by
      unfold Connection.work
      cases known : c.state with
      | none =>
        rw [known] at held
        exact ⟨held.numbers, held.seqno, held.low, held.high, held.buffer⟩
      | some a =>
        rw [known] at held
        exact held
    obtain ⟨new, stored, held'⟩ := start.turn acks turn
    have logged : new = (Work.done _).2.accepted := stored.symm
    rw [← logged]
    exact held'

theorem history_append (hop : ℤ) (outs : List (ℤ × Output α)) (out : ℤ × Output α) : history hop (outs ++ [out]) =
    if out.1 = hop then if out.2.reset then [] else history hop outs ++ out.2.accepted else history hop outs := by
  rw [history, List.foldl_append]
  rfl

theorem Station.heldFor_step {station next : Station α} {outs : List (ℤ × Output α)} {out : ℤ × Output α} {input : ℤ × Input α}
    (held : station.heldFor outs) (acks : AcksNext (station.connection input.1) input.2)
    (taken : (machine config).step station input = some (next, out)) : next.heldFor (outs ++ [out]) := by
  obtain ⟨⟨c, done⟩, stepped, same⟩ := Option.map_eq_some_iff.mp taken
  cases same
  intro hop
  rw [history_append]
  by_cases own : input.1 = hop
  · subst own
    rw [if_pos rfl]
    have after := (held input.1).stepped acks (step_stepped stepped : Stepped config (station.connection input.1) input.2 (c, done))
    simpa using after
  · rw [if_neg own]
    have other := held hop
    rwa [← Function.update_of_ne (Ne.symm own) c.state station.states] at other

/-- Where every acknowledgement is for the next packet, the buffer has the packets above the highest acknowledgement, and no others. -/
theorem run_held {inputs : List (ℤ × Input α)} {station : Station α} {outs : List (ℤ × Output α)} {maxTimeouts hop : ℤ}
    (run : (machine config).run (Station.initial maxTimeouts) inputs = some (station, outs))
    (acks : (machine config).Along (fun station input => AcksNext (station.connection input.1) input.2)
      (Station.initial maxTimeouts) inputs)
    (known : station.states hop = some a) :
    a.sendBuf = ((history hop outs).filter fun p => a.highestAck < p.sendSeqno) ∧
      a.seqno = (history hop outs).length ∧ (a.sendBuf.length : ℤ) = a.seqno - (a.highestAck + 1) := by
  have initial : (Station.initial maxTimeouts : Station α).heldFor [] := fun _ => held_newEntry 0
  have held : station.heldFor ([] ++ outs) :=
    Machine.run_kept_logged_along (fun _ _ _ _ _ held acks taken => Station.heldFor_step held acks taken) initial acks run
  have here := held hop
  rw [known, List.nil_append] at here
  exact ⟨here.buffer, here.seqno, here.length⟩

/-- A station with a window of eight packets in Go-Back-N mode. -/
def goBackN : Config := ⟨8, 1000, false, false⟩

/-- The inputs of a connection to the next hop 1 with some packets to send, until it is confirmed. -/
def opening (packets : List ℕ) : List (ℤ × Input ℕ) := (packets.map fun data => (1, .outgoing 0 data)) ++ [(1, .incoming 0 false (.u .ua))]

theorem opening_acksNext : (machine goBackN).Along (fun station input => AcksNext (station.connection input.1) input.2)
    (Station.initial 2) (opening [10, 11] ++ [(1, .incoming 0 false (.s 1 .rr))]) := by
  refine ⟨?_, ?_, ?_, ?_, trivial⟩ <;> rintro k ⟨⟩
  exact Or.inl (by decide)

theorem run_held_sample : ∃ station outs a,
    (machine goBackN).run (Station.initial 2) (opening [10, 11] ++ [(1, .incoming 0 false (.s 1 .rr))]) = some (station, outs) ∧
    station.states 1 = some a ∧ (a.sendBuf = (history 1 outs).filter fun p => a.highestAck < p.sendSeqno) ∧
    a.seqno = (history 1 outs).length ∧ (a.sendBuf.length : ℤ) = a.seqno - (a.highestAck + 1) :=
  ⟨_, _, _, rfl, rfl, run_held rfl opening_acksNext rfl⟩

/-- The acknowledgement of packets 0 and 1 leaves packet 0 in the buffer. -/
theorem acknowledged_kept : ∃ station outs a,
    (machine goBackN).run (Station.initial 2) (opening [10, 11] ++ [(1, .incoming 0 false (.s 2 .rr))]) = some (station, outs) ∧
    station.states 1 = some a ∧ a.highestAck = 1 ∧ a.sendBuf = [⟨0, 10⟩] ∧
    a.sendBuf ≠ (history 1 outs).filter fun p => a.highestAck < p.sendSeqno := by
  exact ⟨_, _, _, rfl, rfl, rfl, rfl, by decide⟩

end HDLC

end Ns2
