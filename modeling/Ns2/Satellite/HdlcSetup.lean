import Ns2.Satellite.HdlcLink

namespace Ns2

namespace HDLC

/-- Why a step may execute `reset`. -/
inductive Resets (maxTimeouts : ℤ) (a : ARQstate α) : Input α → Prop
  | timeouts (exceeded : a.ntimeouts + 1 > maxTimeouts) : Resets maxTimeouts a (.expire .rtx)
  | timer (pending : a.resetPending = true) : Resets maxTimeouts a (.expire .reset)
  | disc {unset : ℤ} : Resets maxTimeouts a (.incoming unset false (.u .disc))
  /-- A request for a connection where there is a state already. -/
  | sabme {unset : ℤ} : Resets maxTimeouts a (.incoming unset false (.u .sabme))

variable {α : Type*} {config : Config} {c : Connection α} {input : Input α} {next : Connection α × Output α} {w w' : Work α}
  {a : ARQstate α} {p : Packet α} {k : ℤ}

theorem done_map {made : Option (Work α)} (taken : made.map Work.done = some next) : next.2.reset = false := by
  obtain ⟨w', _, rfl⟩ := Option.map_eq_some_iff.mp taken
  rfl

theorem timeout_resets (taken : timeout config w = some next) (executed : next.2.reset = true) : w.a.ntimeouts + 1 > w.maxTimeouts := by
  by_contra within
  unfold timeout at taken
  dsimp only at taken
  rw [if_neg within] at taken
  split_ifs at taken
  · obtain ⟨_, _, rfl⟩ := Option.map_eq_some_iff.mp taken
    cases executed
  · cases taken
    cases executed
  · rw [done_map taken] at executed
    cases executed

theorem withState_resets {handle : Work α → Option (Connection α × Output α)}
    (handled : ∀ w next, handle w = some next → next.2.reset = false) (taken : withState c handle = some next) :
    next.2.reset = false := by
  unfold withState at taken
  cases known : c.state with
  | none =>
    rw [known] at taken
    cases taken
    rfl
  | some a =>
    rw [known] at taken
    exact handled _ _ taken

/-- Nothing else executes `reset`, as `disconnect_` is never set. -/
theorem step_resets (known : c.state = some a) (connected : a.disconnect = false) (taken : c.step config input = some next)
    (executed : next.2.reset = true) : Resets c.maxTimeouts a input := by
  have calm (quiet : next.2.reset = false) : Resets c.maxTimeouts a input := by
    rw [quiet] at executed
    cases executed
  cases input with
  | outgoing unset data =>
    refine calm ?_
    change recvOutgoing config unset data c = some next at taken
    unfold recvOutgoing at taken
    dsimp only at taken
    split_ifs at taken
    · exact done_map taken
    · cases taken
      rfl
  | incoming unset error frame =>
    cases error with
    | true =>
      cases taken
      cases executed
    | false =>
      change recvIncoming config unset false frame c = some next at taken
      unfold recvIncoming at taken
      rw [if_neg Bool.false_ne_true] at taken
      cases frame with
      | i k p => exact calm (withState_resets (fun _ _ done => done_map done) taken)
      | s k stype => exact calm (withState_resets (fun _ _ done => done_map done) taken)
      | u utype =>
        cases utype with
        | sabme => exact .sabme
        | disc => exact .disc
        | ua =>
          refine calm ?_
          change withState c (handleUA config) = some next at taken
          unfold withState handleUA at taken
          rw [known] at taken
          dsimp only at taken
          rw [connected, if_neg Bool.false_ne_true] at taken
          split_ifs at taken
          · exact done_map taken
          · cases taken
            rfl
        | _ => cases taken
  | expire timer =>
    change c.state.bind _ = some next at taken
    rw [known, Option.bind_some] at taken
    cases timer <;> simp only [expire, Option.ite_none_right_eq_some] at taken
    · have exceeded := timeout_resets taken.2 executed
      exact .timeouts exceeded
    · exact .timer taken.1
    · cases taken.2
      cases executed

/-- A packet leaves the buffer with its acknowledgement. -/
theorem acknowledged_removes (mem : p ∈ a.sendBuf) (gone : p ∉ (a.acknowledged k).sendBuf) : p.sendSeqno = k - 1 := by
  unfold ARQstate.acknowledged at gone
  split_ifs at gone
  · by_contra other
    exact gone ((List.mem_eraseP_of_neg (by simpa using other)).mpr mem)
  · exact absurd mem gone

theorem Turn.removes (turn : Turn config w input w') (mem : p ∈ w.a.sendBuf) (gone : p ∉ w'.a.sendBuf) :
    input.acks = some (p.sendSeqno + 1) := by
  cases turn with
  | sends sends => exact absurd (sends.sameSender.sendBuf ▸ mem) gone
  | @outgoing _ data w₁ _ before sends =>
    have stored : w₁.a.sendBuf ⊆ (inSendBuffer config data w₁).a.sendBuf := by
      unfold inSendBuffer
      split_ifs
      · exact List.Subset.refl _
      · exact List.subset_append_left _ _
    rw [sends.sameSender.sendBuf] at gone
    exact absurd (stored (before.sameSender.sendBuf ▸ mem)) gone
  | @acknowledged k _ _ sends =>
    rw [sends.sameSender.sendBuf] at gone
    have number := acknowledged_removes mem gone
    exact congrArg some (by omega)
  | resends _ _ => exact absurd mem gone
  | @receives rseq unset p' w₁ _ _ _ before received sends =>
    rw [sends.sameSender.sendBuf, (receive_sameSender received).sendBuf] at gone
    change p ∉ w₁.a.sendBuf at gone
    rw [before.sameSender.sendBuf] at gone
    unfold Work.piggyback at gone
    split_ifs at gone with valid
    · have number := acknowledged_removes mem gone
      have acks : (Input.incoming unset false (.i rseq p')).acks = some rseq := if_pos valid
      exact acks.trans (congrArg some (by omega))
    · exact absurd mem gone

theorem Sends.disconnect (sends : Sends config w w') : w'.a.disconnect = w.a.disconnect := by
  obtain ⟨g, more, rfl, _⟩ := sends
  rfl

theorem piggyback_disconnect (rseq : ℤ) (w : Work α) : (w.piggyback rseq).a.disconnect = w.a.disconnect := by
  unfold Work.piggyback Work.acknowledged ARQstate.acknowledged
  split_ifs <;> rfl

theorem deliverFrom_disconnect (fuel : ℕ) (w : Work α) : (deliverFrom fuel w).a.disconnect = w.a.disconnect := by
  induction fuel generalizing w with
  | zero => rfl
  | succ fuel ih =>
    rw [deliverFrom]
    split
    · rfl
    · exact ih _

theorem receive_disconnect (done : receive config p w = some w') : w'.a.disconnect = w.a.disconnect := by
  have noted : (noteMaxseen p w).a.disconnect = w.a.disconnect := by
    unfold noteMaxseen
    split_ifs <;> rfl
  unfold receive at done
  split_ifs at done
  · cases done
    rcases selectiveRepeatMode_cases config p w with sends | ⟨_, _, sends⟩
    · exact sends.disconnect.trans noted
    · exact sends.disconnect.trans ((deliverFrom_disconnect ..).trans noted)
  · rcases goBackNMode_cases done with ⟨_, sends⟩ | ⟨_, _, rfl⟩ | ⟨_, sends⟩
    · exact sends.disconnect
    · rfl
    · exact sends.disconnect

theorem Turn.disconnect (turn : Turn config w input w') : w'.a.disconnect = w.a.disconnect := by
  cases turn with
  | sends sends => exact sends.disconnect
  | @outgoing _ data w₁ _ before sends =>
    have stored : (inSendBuffer config data w₁).a.disconnect = w₁.a.disconnect := by
      unfold inSendBuffer
      split_ifs <;> rfl
    exact sends.disconnect.trans (stored.trans before.disconnect)
  | @acknowledged k _ _ sends =>
    have acked : (w.acknowledged k).a.disconnect = w.a.disconnect := by
      unfold Work.acknowledged ARQstate.acknowledged
      split_ifs <;> rfl
    exact sends.disconnect.trans acked
  | resends _ _ => rfl
  | receives _ before received sends =>
    exact sends.disconnect.trans ((receive_disconnect received).trans (before.disconnect.trans (piggyback_disconnect ..)))

/-- No state has `disconnect_` set. -/
def Connection.Open (c : Connection α) : Prop := ∀ a, c.state = some a → a.disconnect = false

theorem Connection.open_stepped (opened : c.Open) (stepped : Stepped config c input next) : next.1.Open := by
  cases stepped with
  | reset state _ _ =>
    intro a known
    rcases state with none | made
    · rw [none] at known
      cases known
    · rw [made] at known
      cases known
      rfl
  | idle => exact opened
  | turn turn =>
    intro a known
    cases known
    rw [turn.disconnect]
    unfold Connection.work
    cases before : c.state with
    | none => rfl
    | some a => exact opened a before

section

variable {config : Bool → Config} {link link' : Link α} {step : LinkInput α} {reset : Bool}

/-- A step is one of a station, or the loss of a frame. -/
theorem linkMachine_step (taken : (linkMachine config).step link step = some (link', reset)) :
    link'.side = link.side ∨ ∃ b input next, link.acts step = some (b, input) ∧ (link.side b).step (config b) input = some next ∧
      link'.side = Function.update link.side b next.1 ∧ reset = next.2.reset := by
  by_cases lost : ∃ c i, step = .lose c i
  · obtain ⟨c, i, rfl⟩ := lost
    cases taken
    exact Or.inl rfl
  have acting : ((link.acts step).bind fun act => ((link.side act.1).step (config act.1) act.2).map fun next =>
      ((link.taken step).turn act.1 next, next.2.reset)) = some (link', reset) := by
    cases step with
    | lose c i => exact absurd ⟨c, i, rfl⟩ lost
    | _ => exact taken
  obtain ⟨⟨b, input⟩, acts, acting⟩ := Option.bind_eq_some_iff.mp acting
  obtain ⟨next, stepped, same⟩ := Option.map_eq_some_iff.mp acting
  cases same
  have sides : (link.taken step).side = link.side := by cases step <;> rfl
  exact Or.inr ⟨b, input, next, acts, stepped, by rw [Link.turn, sides], rfl⟩

theorem Link.open_step (opened : ∀ b, (link.side b).Open) (taken : (linkMachine config).step link step = some (link', reset)) :
    ∀ b, (link'.side b).Open := by
  intro b
  rcases linkMachine_step taken with same | ⟨x, input, next, _, stepped, sides, _⟩
  · rw [same]
    exact opened b
  · rw [sides]
    by_cases own : b = x
    · subst own
      rw [Function.update_self]
      exact Connection.open_stepped (opened b) (step_stepped stepped)
    · rw [Function.update_of_ne own]
      exact opened b

/-- In every run, a packet leaves the buffer with its acknowledgement, or with a reset that is executed for one of four reasons. -/
theorem run_removes {steps : List (LinkInput α)} {resets : List Bool} {maxTimeouts : Bool → ℤ} {b : Bool}
    (run : (linkMachine config).run (Link.initial maxTimeouts) steps = some (link, resets))
    (taken : (linkMachine config).step link step = some (link', reset)) (known : (link.side b).state = some a) (mem : p ∈ a.sendBuf)
    (gone : ∀ a', (link'.side b).state = some a' → p ∉ a'.sendBuf) :
    ∃ input, link.acts step = some (b, input) ∧
      (input.acks = some (p.sendSeqno + 1) ∨ Resets (link.side b).maxTimeouts a input) := by
  have initial : ∀ b, ((Link.initial maxTimeouts : Link α).side b).Open := fun b a known => by cases known
  have opened := Machine.run_kept (fun _ _ _ _ opened _ taken => Link.open_step opened taken) initial
    (Machine.along_trivial ..) run
  have moved : link'.side b ≠ link.side b := fun same => gone a (same ▸ known) mem
  rcases linkMachine_step taken with same | ⟨x, input, next, acts, stepped, sides, _⟩
  · exact absurd (congrFun same b) moved
  have own : b = x := by
    by_contra other
    rw [sides, Function.update_of_ne other] at moved
    exact moved rfl
  subst own
  rw [sides, Function.update_self] at gone
  refine ⟨input, acts, ?_⟩
  cases (step_stepped stepped : Stepped (config b) (link.side b) input next) with
  | reset _ executed _ => exact Or.inr (step_resets known (opened b a known) stepped executed)
  | idle => exact absurd mem (gone a known)
  | turn turn =>
    have start : ((link.side b).work input).a = a := by
      rw [Connection.work, known]
      rfl
    exact Or.inl (turn.removes (start ▸ mem) (gone _ rfl))

end

/-- Packet 0 is acknowledged. -/
def acknowledgedFirst : List (LinkInput ℕ) :=
  [.outgoing false 0 10, .outgoing false 0 11, .deliver false 0, .deliver true 0, .deliver false 0]

theorem run_removes_sample : ∃ link resets link' a,
    (linkMachine stations).run (Link.initial fun _ => 2) acknowledgedFirst = some (link, resets) ∧
    (linkMachine stations).step link (.deliver true 0) = some (link', false) ∧ (link.side false).state = some a ∧
    ∃ input, link.acts (.deliver true 0) = some (false, input) ∧ (input.acks = some 1 ∨ Resets (link.side false).maxTimeouts a input) :=
  ⟨_, _, _, _, rfl, rfl, rfl, run_removes (p := ⟨0, 10⟩)
    (rfl : (linkMachine stations).run (Link.initial fun _ => 2) acknowledgedFirst = some _) rfl rfl (List.mem_cons_self ..)
    (by rintro _ ⟨⟩; decide)⟩

/-- Both stations open the connection at once, and all frames arrive. -/
def crossing : List (LinkInput ℕ) :=
  [.outgoing false 0 10, .outgoing true 0 20, .deliver true 0, .deliver false 0, .deliver true 0, .deliver false 0]

/-- Both packets are gone without an acknowledgement, a timeout or a DISC, and neither station is connected. -/
theorem crossing_purges : ∃ link resets a b, (linkMachine stations).run (Link.initial fun _ => 2) crossing = some (link, resets) ∧
    link.accepted false = [⟨0, 10⟩] ∧ link.accepted true = [⟨0, 20⟩] ∧ link.passed false = [] ∧ link.passed true = [] ∧
    link.transit false = [] ∧ link.transit true = [] ∧ (link.side false).state = some a ∧ (link.side true).state = some b ∧
    a.sendBuf = [] ∧ b.sendBuf = [] ∧ a.sabmeReq = 0 ∧ b.sabmeReq = 0 :=
  ⟨_, _, _, _, rfl, rfl, rfl, rfl, rfl, rfl, rfl, rfl, rfl, rfl, rfl, rfl, rfl⟩

end HDLC

end Ns2
