import Ns2.Satellite.HdlcSendBuffer

namespace Ns2

namespace HDLC

/-- The number that a REJ frame asks for. -/
def Frame.rejects : Frame α → Option ℤ
  | .s k .rej => some k
  | _ => none

/-- The number of the last REJ frame. -/
def lastRejected (last : Option ℤ) (frames : List (Frame α)) : Option ℤ := frames.foldl (fun last frame => frame.rejects.or last) last

/-- The reset timer is pending only while the packet of the last REJ frame is missing. -/
def Awaits (last : Option ℤ) (w : Work α) : Prop :=
  w.a.resetPending = true → w.a.sentREJ = true ∧ lastRejected last w.sent = some w.a.recvSeqno

/-- The packet in order does not come while the reset timer is pending. -/
def Unrepaired (c : Connection α) (input : Input α) : Prop := ∀ unset rseq p, input = .incoming unset false (.i rseq p) →
  (c.work input).a.sabmeReq ≠ 1 → (c.work input).a.resetPending = true → p.sendSeqno ≠ ((c.work input).opened p).a.recvSeqno

/-- The routine has not to do with the receiving part of the state. -/
structure SameReceiver (w w' : Work α) : Prop where
  recvSeqno : w'.a.recvSeqno = w.a.recvSeqno
  sentREJ : w'.a.sentREJ = w.a.sentREJ
  resetPending : w'.a.resetPending = w.a.resetPending
  sent : ∃ more, w'.sent = w.sent ++ more ∧ ∀ frame ∈ more, frame.rejects = none

variable {α : Type*} {config : Config} {w w' w'' : Work α} {a : ARQstate α} {p : Packet α} {last : Option ℤ}

theorem lastRejected_none {more : List (Frame α)} (none : ∀ frame ∈ more, frame.rejects = none) : lastRejected last more = last := by
  induction more with
  | nil => rfl
  | cons frame more ih =>
    obtain ⟨first, rest⟩ := List.forall_mem_cons.mp none
    rw [lastRejected, List.foldl_cons, first]
    exact ih rest

theorem lastRejected_append {frames more : List (Frame α)} (none : ∀ frame ∈ more, frame.rejects = none) :
    lastRejected last (frames ++ more) = lastRejected last frames := by
  rw [lastRejected, List.foldl_append]
  exact lastRejected_none none

theorem Sends.sameReceiver (sends : Sends config w w') : SameReceiver w w' := by
  obtain ⟨g, more, rfl, carried⟩ := sends
  exact ⟨rfl, rfl, rfl, more, rfl, fun frame mem => by cases carried frame mem <;> rfl⟩

theorem Awaits.same (awaits : Awaits last w) (same : SameReceiver w w') : Awaits last w' := by
  intro pending
  obtain ⟨sent, rejected⟩ := awaits (same.resetPending ▸ pending)
  obtain ⟨more, appended, none⟩ := same.sent
  exact ⟨same.sentREJ.trans sent, by rw [appended, lastRejected_append none, rejected, same.recvSeqno]⟩

theorem inSendBuffer_sameReceiver (config : Config) (data : α) (w : Work α) : SameReceiver w (inSendBuffer config data w) := by
  unfold inSendBuffer
  split_ifs <;> exact ⟨rfl, rfl, rfl, [], by simp, by simp⟩

theorem acknowledged_sameReceiver (k : ℤ) (w : Work α) : SameReceiver w (w.acknowledged k) := by
  unfold Work.acknowledged ARQstate.acknowledged
  split_ifs <;> exact ⟨rfl, rfl, rfl, [], by simp, by simp⟩

theorem piggyback_sameReceiver (rseq : ℤ) (w : Work α) : SameReceiver w (w.piggyback rseq) := by
  unfold Work.piggyback
  split_ifs
  · exact acknowledged_sameReceiver rseq w
  · exact ⟨rfl, rfl, rfl, [], by simp, by simp⟩

/-- The only branch that sets the timer sends the REJ frame. -/
theorem Awaits.goBackN (awaits : Awaits last w) (unrepaired : w.a.resetPending = true → p.sendSeqno ≠ w.a.recvSeqno)
    (done : goBackNMode config p w = some w') : Awaits last w' := by
  rcases goBackNMode_cases done with ⟨inOrder, sends⟩ | ⟨_, _, rfl⟩ | ⟨_, sends⟩
  · intro pending
    exact absurd inOrder (unrepaired (sends.sameReceiver.resetPending ▸ pending))
  · intro _
    refine ⟨rfl, ?_⟩
    change lastRejected last (w.sent ++ [.s w.a.recvSeqno .rej]) = _
    rw [lastRejected, List.foldl_append]
    rfl
  · exact awaits.same sends.sameReceiver

theorem Awaits.turn {input : Input α} (goBack : config.selRepeat = false) (awaits : Awaits last w)
    (unrepaired : ∀ unset rseq p, input = .incoming unset false (.i rseq p) → w.a.sabmeReq ≠ 1 → w.a.resetPending = true →
      p.sendSeqno ≠ (w.opened p).a.recvSeqno) (turn : Turn config w input w') : Awaits last w' := by
  cases turn with
  | sends sends => exact awaits.same sends.sameReceiver
  | outgoing before sends =>
    exact ((awaits.same before.sameReceiver).same (inSendBuffer_sameReceiver ..)).same sends.sameReceiver
  | acknowledged sends => exact (awaits.same (acknowledged_sameReceiver ..)).same sends.sameReceiver
  | resends _ _ => exact awaits.same ⟨rfl, rfl, rfl, [_], rfl, by simp [Frame.rejects]⟩
  | @receives rseq unset p w₁ w₂ _ connected before received sends =>
    have acked := piggyback_sameReceiver rseq w
    have kept := before.sameReceiver
    have recvSeqno : w₁.a.recvSeqno = w.a.recvSeqno := kept.recvSeqno.trans acked.recvSeqno
    have pending : w₁.a.resetPending = w.a.resetPending := kept.resetPending.trans acked.resetPending
    rw [receive, if_neg (by rw [goBack]; exact Bool.false_ne_true)] at received
    have waiting : (w₁.opened p).a.resetPending = true → p.sendSeqno ≠ (w₁.opened p).a.recvSeqno := fun set => by
      have missing := unrepaired unset rseq p rfl connected (pending ▸ set)
      unfold Work.opened at missing ⊢
      rwa [recvSeqno]
    refine Awaits.same ?_ sends.sameReceiver
    refine Awaits.goBackN (fun set => ?_) waiting received
    -- packet 0 would be in order now
    have unopened : (w₁.opened p).a.recvSeqno = w₁.a.recvSeqno := by
      have missing := waiting set
      unfold Work.opened at missing ⊢
      dsimp only at missing ⊢
      split_ifs at missing ⊢ with first
      · exact absurd first.1 missing
      · rfl
    rw [unopened]
    exact (awaits.same acked).same kept set

/-- The last REJ frame to a next hop since its state was made. -/
def rejectedTo (hop : ℤ) (outs : List (ℤ × Output α)) : Option ℤ :=
  outs.foldl (fun last out => if out.1 = hop then if out.2.reset then none else lastRejected last out.2.sent else last) none

def Station.awaits (station : Station α) (outs : List (ℤ × Output α)) : Prop :=
  ∀ hop, ∀ a, station.states hop = some a → a.resetPending = true → a.sentREJ = true ∧ rejectedTo hop outs = some a.recvSeqno

theorem Awaits.stepped {c : Connection α} {input : Input α} {next : Connection α × Output α} (goBack : config.selRepeat = false)
    (awaits : ∀ a, c.state = some a → a.resetPending = true → a.sentREJ = true ∧ last = some a.recvSeqno)
    (unrepaired : Unrepaired c input) (stepped : Stepped config c input next) (known : next.1.state = some a)
    (pending : a.resetPending = true) :
    a.sentREJ = true ∧ (if next.2.reset then none else lastRejected last next.2.sent) = some a.recvSeqno := by
  cases stepped with
  | reset state _ _ =>
    rcases state with none | made
    · rw [none] at known
      cases known
    · rw [made] at known
      cases known
      cases pending
  | idle => exact awaits a known pending
  | turn turn =>
    cases known
    have start : Awaits last (c.work input) := by
      unfold Awaits Connection.work
      cases before : c.state with
      | none =>
        intro set
        cases set
      | some a => exact awaits a before
    exact start.turn goBack unrepaired turn pending

theorem Station.awaits_step {station next : Station α} {outs : List (ℤ × Output α)} {out : ℤ × Output α} {input : ℤ × Input α}
    (goBack : config.selRepeat = false) (awaits : station.awaits outs) (unrepaired : Unrepaired (station.connection input.1) input.2)
    (taken : (machine config).step station input = some (next, out)) : next.awaits (outs ++ [out]) := by
  obtain ⟨⟨c, done⟩, stepped, same⟩ := Option.map_eq_some_iff.mp taken
  cases same
  intro hop a known pending
  rw [rejectedTo, List.foldl_append, ← rejectedTo, List.foldl_cons, List.foldl_nil]
  dsimp only at known
  by_cases own : input.1 = hop
  · subst own
    rw [Function.update_self] at known
    rw [if_pos rfl]
    exact Awaits.stepped goBack (awaits input.1) unrepaired (step_stepped stepped) known pending
  · rw [Function.update_of_ne (Ne.symm own)] at known
    rw [if_neg own]
    exact awaits hop a known pending

/-- Where no gap is repaired while the timer is pending, that is pending only while the packet last rejected is missing. -/
theorem run_awaits {inputs : List (ℤ × Input α)} {station : Station α} {outs : List (ℤ × Output α)} {maxTimeouts hop : ℤ}
    (goBack : config.selRepeat = false)
    (run : (machine config).run (Station.initial maxTimeouts) inputs = some (station, outs))
    (unrepaired : (machine config).Along (fun station input => Unrepaired (station.connection input.1) input.2)
      (Station.initial maxTimeouts) inputs)
    (known : station.states hop = some a) (pending : a.resetPending = true) :
    a.sentREJ = true ∧ rejectedTo hop outs = some a.recvSeqno := by
  have initial : (Station.initial maxTimeouts : Station α).awaits [] := fun _ _ known => by cases known
  have awaits : station.awaits ([] ++ outs) :=
    Machine.run_kept_logged_along (fun _ _ _ _ _ awaits missing taken => Station.awaits_step goBack awaits missing taken)
      initial unrepaired run
  exact awaits hop a known pending

/-- The inputs of a station that misses packet 1. -/
def gap : List (ℤ × Input ℕ) :=
  [(1, .incoming 0 false (.u .sabme)), (1, .incoming 0 false (.i (-1) ⟨0, 10⟩)), (1, .incoming 0 false (.i (-1) ⟨2, 12⟩))]

theorem gap_unrepaired : (machine goBackN).Along (fun station input => Unrepaired (station.connection input.1) input.2)
    (Station.initial 2) gap := by
  refine ⟨?_, ?_, ?_, trivial⟩
  · rintro _ _ _ ⟨⟩
  · rintro _ _ _ ⟨⟩ _ ⟨⟩
  · rintro _ _ _ ⟨⟩ _ ⟨⟩

theorem run_awaits_sample : ∃ station outs a, (machine goBackN).run (Station.initial 2) gap = some (station, outs) ∧
    station.states 1 = some a ∧ a.resetPending = true ∧ a.sentREJ = true ∧ rejectedTo 1 outs = some a.recvSeqno :=
  ⟨_, _, _, rfl, rfl, rfl, run_awaits rfl rfl gap_unrepaired rfl rfl⟩

/-- The gap is repaired, and the timer resets the connection after all. -/
theorem repaired_reset : ∃ station outs a last resetOuts,
    (machine goBackN).run (Station.initial 2) (gap ++ [(1, .incoming 0 false (.i (-1) ⟨1, 11⟩))]) = some (station, outs) ∧
    station.states 1 = some a ∧ a.recvSeqno = 2 ∧ a.sentREJ = false ∧ a.resetPending = true ∧
    (machine goBackN).run station [(1, .expire .reset)] = some (last, resetOuts) ∧ last.states 1 = none :=
  ⟨_, _, _, _, _, rfl, rfl, rfl, rfl, rfl, rfl, rfl⟩

end HDLC

end Ns2
