import Ns2.Dccp.AgentTimers

namespace Ns2

open DCCPAgent

variable {params : DCCPParams} {agent : DCCPAgent} {result : DCCPAgent × List Frame}

/-- The handler of the retransmission timer retransmits unless the back-off
has failed; then it gives up, at once or when its reset packet is sent. -/
theorem DCCPAgent.timeoutRtx_cases (done : timeoutRtx params agent = some result) :
    (agent.timerRtx.backoffFailed = false ∧ agent.state.waiting = true ∧ result.1.state = agent.state ∧
        result.1.timerRtx = agent.timerRtx.backOff) ∨
      (result.1.state.waiting = false ∧ result.1.timerRtx.scheduled = agent.timerRtx.scheduled) ∨
      (Frame.reset ∈ result.2 ∧ result.1.state = agent.state ∧ result.1.timerRtx = agent.timerRtx) := by
  have resets : some agent.sendResetReset = some result →
      Frame.reset ∈ result.2 ∧ result.1.state = agent.state ∧ result.1.timerRtx = agent.timerRtx := by
    intro same
    cases Option.some.inj same
    exact ⟨List.mem_cons_of_mem _ (List.mem_cons_self ..), sendReset_stay⟩
  have retries : agent.state.waiting = true → some (outputPacket params false agent) = some result →
      agent.state.waiting = true ∧ result.1.state = agent.state ∧ result.1.timerRtx = agent.timerRtx.backOff := by
    intro waits same
    cases Option.some.inj same
    exact ⟨waits, outputPacket_waiting params false agent waits⟩
  unfold timeoutRtx at done
  split at done <;> rename_i state
  · exact .inr (.inr (resets done))
  · split_ifs at done with failed
    · exact .inr (.inr (resets done))
    · exact .inl ⟨Bool.eq_false_iff.mpr failed, retries (by rw [state]; rfl) done⟩
  · split_ifs at done with failed
    · exact .inr (.inr (resets done))
    · exact .inl ⟨Bool.eq_false_iff.mpr failed, retries (by rw [state]; rfl) done⟩
  · split_ifs at done with failed
    · obtain ⟨left, gone, made⟩ := Option.map_eq_some_iff.mp done
      cases made
      exact .inr (.inl (reset_left gone))
    · exact .inl ⟨Bool.eq_false_iff.mpr failed, retries (by rw [state]; rfl) done⟩
  all_goals exact absurd done (by simp)

namespace DCCPConfig

open DCCPRetransmitTimer

/-- What one step can do to the state, the retransmission timer and the
resets that are still to come. -/
inductive Moved (params : DCCPParams) (before after : DCCPConfig) : Prop
  | acted (effect : Effect params before.agent after.agent)
      (kept : Frame.reset ∈ before.stack → Frame.reset ∈ after.stack ∨ after.agent.state.waiting = false)
  | expired (going : before.agent.timerRtx.backoffFailed = false) (waits : before.agent.state.waiting = true)
      (same : after.agent.state = before.agent.state)
      (again : after.agent.timerRtx = before.agent.timerRtx.handling.backOff)
  | gaveUp (resets : Frame.reset ∈ after.stack) (same : after.agent.state = before.agent.state)
      (timer : after.agent.timerRtx = before.agent.timerRtx.handling)
  | handled (same : after.agent.state = before.agent.state)
      (timer : after.agent.timerRtx = before.agent.timerRtx.handled)
      (kept : Frame.reset ∈ before.stack → Frame.reset ∈ after.stack)

variable {before after config : DCCPConfig} {event : Event}

theorem step_moved (taken : step params before event = some after) : Moved params before after := by
  cases event with
  | call call =>
    simp only [step] at taken
    split_ifs at taken
    obtain ⟨result, done, made⟩ := Option.map_eq_some_iff.mp taken
    cases made
    exact .acted (Call.perform_effect done) fun waiting => .inl (List.mem_append_right _ waiting)
  | resume answer =>
    obtain ⟨agent, stack⟩ := before
    cases stack with
    | nil => exact absurd taken (by simp [step])
    | cons frame rest =>
      obtain ⟨result, done, made⟩ := Option.map_eq_some_iff.mp taken
      cases made
      by_cases last : frame = .handledRtx
      · subst last
        cases Option.some.inj done
        exact .handled rfl rfl fun waiting => (List.mem_cons.mp waiting).resolve_left (by simp)
      · refine .acted (Frame.resume_effect last done) fun waiting => ?_
        rcases List.mem_cons.mp waiting with now | later
        · subst now
          obtain ⟨left, gone, made⟩ := Option.map_eq_some_iff.mp done
          cases made
          exact .inr (reset_left gone).1
        · exact .inl (List.mem_append_right _ later)
  | rtxExpires =>
    simp only [step] at taken
    split_ifs at taken with ready
    obtain ⟨result, done, made⟩ := Option.map_eq_some_iff.mp taken
    cases made
    obtain ⟨going, waits, same, again⟩ | ⟨left, same⟩ | ⟨resets, same, timer⟩ := timeoutRtx_cases done
    · exact .expired going waits same again
    · exact .acted (.leave left same) fun _ => .inr left
    · exact .gaveUp (List.mem_append_left _ resets) same timer
  | sndExpires =>
    simp only [step] at taken
    split_ifs at taken with ready
    obtain ⟨result, done, made⟩ := Option.map_eq_some_iff.mp taken
    cases made
    unfold timeoutSnd at done
    split at done
    · have effect : Effect params before.agent (outputPacket params false { before.agent with timerSnd := .handling }).1 :=
        outputPacket_effect.congr rfl rfl
      exact .acted (effect.returned done) fun waiting => absurd waiting (by simp [ready.1])
    · exact absurd done (by simp)

/-- The delays are accounted for, and in the states that wait for an answer
the timer is as `init` and `backOff` have left it. -/
structure Counted (params : DCCPParams) (config : DCCPConfig) : Prop where
  bound : config.agent.timerRtx.scheduled.sum ≤ params.maxRtxTo
  backed : config.agent.state.waiting = true → Backed params config.agent.timerRtx

theorem Counted.of_backed (backed : Backed params config.agent.timerRtx) : Counted params config :=
  ⟨backed.bound, fun _ => backed⟩

theorem backed_status {timer : DCCPRetransmitTimer} (status : TimerStatus) (backed : Backed params timer) :
    Backed params { timer with status := status } :=
  ⟨backed.limit, backed.summed, backed.nonneg, backed.progress.imp_left fun ⟨n, doubled⟩ =>
    ⟨n, doubled.going, doubled.total, doubled.delay, doubled.within⟩⟩

section

variable (positive : 0 < params.initialRtxTo) (small : params.initialRtxTo ≤ params.maxRtxTo)
include positive small

theorem Counted.step (counted : Counted params before) (taken : step params before event = some after) : Counted params after := by
  cases step_moved taken with
  | acted effect =>
    cases effect with
    | stay state timer => exact ⟨timer ▸ counted.bound, fun waits => timer ▸ counted.backed (state ▸ waits)⟩
    | leave left same => exact ⟨same ▸ counted.bound, fun waits => absurd (left.symm.trans waits) Bool.false_ne_true⟩
    | enter timer state begun =>
      exact .of_backed (begun ▸ backed_backOff positive small (backed_init positive small))
    | retry waits same again => exact .of_backed (again ▸ backed_backOff positive small (counted.backed waits))
  | expired going waits same again =>
    exact .of_backed (again ▸ backed_backOff positive small (backed_status _ (counted.backed waits)))
  | gaveUp resets same timer =>
    exact ⟨timer ▸ counted.bound, fun waits => timer ▸ backed_status _ (counted.backed (same ▸ waits))⟩
  | handled same timer =>
    exact ⟨timer ▸ counted.bound, fun waits => timer ▸ backed_status _ (counted.backed (same ▸ waits))⟩

theorem counted_new (unset : DCCPRetransmitTimer) : Counted params (new unset) :=
  ⟨(positive.le.trans small), fun waits => absurd waits Bool.false_ne_true⟩

theorem counted_run {unset : DCCPRetransmitTimer} {events : List Event} {outs : List Unit}
    (run : (machine params).run (new unset) events = some (config, outs)) : Counted params config := by
  refine Machine.run_kept (P := fun _ _ => True) ?_ (counted_new positive small unset) (Machine.along_trivial _ _ _) run
  intro before event after out counted _ taken
  obtain ⟨next, stepped, made⟩ := Option.map_eq_some_iff.mp taken
  cases made
  exact counted.step positive small stepped

end

/-- In the states that wait for an answer the retransmission timer is
pending, or the agent is about to give up. -/
def Armed (config : DCCPConfig) : Prop :=
  config.agent.state.waiting = true → config.agent.timerRtx.status = .pending ∨ Frame.reset ∈ config.stack

section

variable (positive : 0 < params.initialRtxTo) (small : params.initialRtxTo ≤ params.maxRtxTo) (inexact : ¬Exhausts params)
include positive small inexact

theorem Armed.step (counted : Counted params before) (armed : before.Armed) (taken : step params before event = some after) :
    after.Armed := by
  intro waits
  cases step_moved taken with
  | acted effect kept =>
    cases effect with
    | stay state timer =>
      rcases armed (state ▸ waits) with pending | resets
      · exact .inl (timer ▸ pending)
      · exact .inr ((kept resets).resolve_right (by simp [waits]))
    | leave left => exact absurd (left.symm.trans waits) Bool.false_ne_true
    | enter timer state begun =>
      exact .inl (begun ▸ pending_backOff positive inexact (backed_init positive small) rfl)
    | retry before_waits same again =>
      rcases armed before_waits with pending | resets
      · exact .inl (again ▸ kept_backOff pending)
      · exact .inr ((kept resets).resolve_right (by simp [waits]))
  | expired going before_waits same again =>
    exact .inl (again ▸ pending_backOff positive inexact (backed_status _ (counted.backed before_waits)) going)
  | gaveUp resets => exact .inr resets
  | handled same timer kept =>
    rcases armed (same ▸ waits) with pending | resets
    · exact .inl (by rw [timer, handled, pending]; rfl)
    · exact .inr (kept resets)

theorem armed_run {unset : DCCPRetransmitTimer} {events : List Event} {outs : List Unit}
    (run : (machine params).run (new unset) events = some (config, outs)) : config.Armed := by
  have both : Counted params config ∧ config.Armed := by
    refine Machine.run_kept (P := fun _ _ => True) (I := fun config => Counted params config ∧ config.Armed) ?_
      ⟨counted_new positive small unset, fun waits => absurd waits Bool.false_ne_true⟩ (Machine.along_trivial _ _ _) run
    intro before event after out ⟨counted, armed⟩ _ taken
    obtain ⟨next, stepped, made⟩ := Option.map_eq_some_iff.mp taken
    cases made
    exact ⟨counted.step positive small stepped, armed.step positive small inexact counted stepped⟩
  exact both.2

end

/-- A timer of a request that nobody answers expires: `output` sends the
request again, and its handler ends. -/
def expiry : List Event :=
  let answer : Answer := ⟨false, false, 0, false, false⟩
  [.rtxExpires, .resume answer, .resume answer, .resume answer]

def retried (agent : DCCPAgent) : DCCPAgent :=
  { agent with packetSent := true, seqNum := agent.seqNum + 1, timerRtx := agent.timerRtx.handling.backOff.handled }

theorem run_expiry (state : agent.state = .request) (pending : agent.timerRtx.status = .pending)
    (going : agent.timerRtx.backoffFailed = false) :
    (machine params).run ⟨agent, []⟩ expiry = some (⟨retried agent, []⟩, [(), (), (), ()]) := by
  have going : agent.timerRtx.handling.backoffFailed = false := going
  simp [Machine.run, machine, expiry, step, timeoutRtx, outputPacket, outputSend, push, Frame.resume, retried, state, pending,
    going]

/-- The first request of a new agent. -/
def opening : List Event :=
  let answer : Answer := ⟨false, false, 0, false, false⟩
  [.call (.sendmsg 1 false), .resume answer, .resume answer]

theorem run_opening (params : DCCPParams) (unset : DCCPRetransmitTimer) : ∃ agent outs, (machine params).run (new unset) opening = some (⟨agent, []⟩, outs) ∧
    agent.state = .request ∧ ∃ timer : DCCPRetransmitTimer, agent.timerRtx = (timer.init params.initialRtxTo params.maxRtxTo).backOff := by
  simp [Machine.run, machine, opening, step, Call.perform, sendmsg, sbAdd, connectOrSend, changeStateOutput, changeState, new,
    DCCPAgent.new, cancelTimers, outputPacket, outputSend, push, Frame.resume]
  exact ⟨_, rfl⟩

/-- An agent that has requested `n` times with every delay doubled and waits for the timer. -/
structure Requesting (params : DCCPParams) (agent : DCCPAgent) (n : ℕ) : Prop where
  state : agent.state = .request
  pending : agent.timerRtx.status = .pending
  limit : agent.timerRtx.maxTotDelay = params.maxRtxTo
  doubled : Doubled params agent.timerRtx n

theorem doubled_status {timer : DCCPRetransmitTimer} {n : ℕ} (status : TimerStatus) (doubled : Doubled params timer n) :
    Doubled params { timer with status := status } n :=
  ⟨doubled.going, doubled.total, doubled.delay, doubled.within⟩

variable (positive : 0 < params.initialRtxTo) (small : params.initialRtxTo ≤ params.maxRtxTo)
include positive

theorem Requesting.next {n : ℕ} (requesting : Requesting params agent (n + 1))
    (room : (2 ^ (n + 2) - 1) * params.initialRtxTo ≤ params.maxRtxTo) : Requesting params (retried agent) (n + 2) := by
  have handling : Doubled params agent.timerRtx.handling (n + 1) := doubled_status _ requesting.doubled
  have limit : agent.timerRtx.handling.maxTotDelay = params.maxRtxTo := requesting.limit
  have next := handling.backOff_succ positive limit room
  have fits : agent.timerRtx.handling.totDelay + agent.timerRtx.handling.delay * 2 ≤ agent.timerRtx.handling.maxTotDelay := by
    rw [handling.next_total, limit]
    exact room
  have pushed := backOff_double (handling.total_ne_zero positive) fits
  have longer : 0 < agent.timerRtx.delay * 2 := by
    rw [requesting.doubled.next_delay]
    positivity
  refine ⟨requesting.state, ?_, ?_, doubled_status _ next⟩
  · simp only [retried, handled]
    rw [pushed, push_pending longer]
    rfl
  · simp only [retried, handled]
    rw [pushed]
    exact push_limit.trans limit

include small

theorem requesting_run (unset : DCCPRetransmitTimer) (n : ℕ) (room : (2 ^ (n + 1) - 1) * params.initialRtxTo ≤ params.maxRtxTo) :
    ∃ events agent outs, (machine params).run (new unset) events = some (⟨agent, []⟩, outs) ∧ Requesting params agent (n + 1) := by
  induction n with
  | zero =>
    obtain ⟨agent, outs, run, state, timer, begun⟩ := run_opening params unset
    have fresh : Doubled params (timer.init params.initialRtxTo params.maxRtxTo) 0 :=
      ⟨rfl, by simp [init], by simp [init], positive.le.trans small⟩
    refine ⟨opening, agent, outs, run, state, ?_, ?_, begun ▸ fresh.backOff_zero small⟩
    · rw [begun, backOff_first rfl]
      exact push_pending positive
    · rw [begun, backOff_first rfl]
      exact push_limit
  | succ n ih =>
    have fewer : (2 ^ (n + 1) - 1) * params.initialRtxTo ≤ (2 ^ (n + 2) - 1) * params.initialRtxTo := by
      have grows : (2 : ℚ) ^ (n + 1) ≤ 2 ^ (n + 2) := pow_le_pow_right₀ one_le_two (by omega)
      exact mul_le_mul_of_nonneg_right (by linarith) positive.le
    obtain ⟨events, agent, outs, run, requesting⟩ := ih (fewer.trans room)
    refine ⟨events ++ expiry, retried agent, outs ++ [(), (), (), ()], ?_, requesting.next positive room⟩
    rw [Machine.run_append run, run_expiry requesting.state requesting.pending requesting.doubled.going]
    rfl

/-- The doubled delays can use up the limit exactly. The next time-out then
schedules no delay and the agent is left without a timer. -/
theorem stuck_run (unset : DCCPRetransmitTimer) (exhausts : Exhausts params) :
    ∃ events agent outs, (machine params).run (new unset) events = some (⟨agent, []⟩, outs) ∧ agent.state = .request ∧
      agent.timerRtx.status = .idle := by
  obtain ⟨k, full⟩ := exhausts
  obtain _ | n := k
  · have none : params.maxRtxTo = 0 := by rw [full]; simp
    exact absurd none (positive.trans_le small).ne'
  obtain ⟨events, agent, outs, run, requesting⟩ := requesting_run positive small unset n full.ge
  refine ⟨events ++ expiry, retried agent, outs ++ [(), (), (), ()], ?_, requesting.state, ?_⟩
  · rw [Machine.run_append run, run_expiry requesting.state requesting.pending requesting.doubled.going]
    rfl
  · have handling : Doubled params agent.timerRtx.handling (n + 1) := doubled_status _ requesting.doubled
    have limit : agent.timerRtx.handling.maxTotDelay = params.maxRtxTo := requesting.limit
    simp only [retried, handled]
    rw [handling.stopped positive limit full]
    rfl

/-- What is meant by attempts that end: a waiting agent has its retransmission timer
pending whenever no event handler is executing, and the delays stay within the limit. -/
def AttemptsEnd (params : DCCPParams) : Prop :=
  ∀ unset events config outs, (machine params).run (new unset) events = some (config, outs) →
    config.agent.timerRtx.scheduled.sum ≤ params.maxRtxTo ∧
      (config.stack = [] → config.agent.state.waiting = true → config.agent.timerRtx.status = .pending)

theorem attempts_end_iff : AttemptsEnd params ↔ ∀ k : ℕ, params.maxRtxTo ≠ (2 ^ k - 1) * params.initialRtxTo := by
  constructor
  · intro ends k full
    obtain ⟨events, agent, outs, run, state, idle⟩ := stuck_run positive small ⟨.idle, 0, 0, 0, false, []⟩ ⟨k, full⟩
    have pending := (ends _ events _ outs run).2 rfl (by rw [state]; rfl)
    exact absurd (idle.symm.trans pending) (by decide)
  · intro inexact unset events config outs run
    refine ⟨(counted_run positive small run).bound, fun empty waits => ?_⟩
    have armed := armed_run positive small (fun ⟨k, full⟩ => inexact k full) run
    exact (armed waits).resolve_right (by simp [empty])

omit positive small in
theorem attempts_end_sample : AttemptsEnd ⟨3, 75, 1000, 1000⟩ := by
  refine (attempts_end_iff (by decide) (by decide)).mpr ?_
  intro k full
  have power : (2 : ℚ) ^ k = 26 := by linarith
  have natural : 2 ^ k = 26 := by exact_mod_cast power
  have above : 4 < k := (Nat.pow_lt_pow_iff_right Nat.one_lt_two).mp (by omega)
  have below : k < 5 := (Nat.pow_lt_pow_iff_right Nat.one_lt_two).mp (by omega)
  omega

omit positive small in
/-- With equal bounds the first time-out leaves a requesting agent without a timer. -/
theorem equal_bounds_stuck : ¬AttemptsEnd ⟨3, 3, 1000, 1000⟩ := by
  intro ends
  have stuck : ((machine ⟨3, 3, 1000, 1000⟩).run (new ⟨.idle, 0, 0, 0, false, []⟩) (opening ++ expiry)).map
      (fun last => (last.1.stack, last.1.agent.state, last.1.agent.timerRtx.status)) = some ([], .request, .idle) := by
    decide +kernel
  obtain ⟨⟨config, outs⟩, run, last⟩ := Option.map_eq_some_iff.mp stuck
  obtain ⟨empty, state, idle⟩ : config.stack = [] ∧ config.agent.state = .request ∧ config.agent.timerRtx.status = .idle := by
    simpa using last
  have pending := (ends _ _ config outs run).2 empty (by rw [state]; rfl)
  exact absurd (idle.symm.trans pending) (by decide)

end DCCPConfig

end Ns2
