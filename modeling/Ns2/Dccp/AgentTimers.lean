import Ns2.Dccp.RetransmitTimer

namespace Ns2

/-- The states in which something is retransmitted until the agent gives up. -/
def DCCPState.waiting : DCCPState → Bool
  | .request | .closereq | .closing => true
  | .closed | .listen | .respond | .open => false

namespace DCCPAgent

/-- What code of the agent that does not give up can do to its state and its
retransmission timer. -/
inductive Effect (params : DCCPParams) (before after : DCCPAgent) : Prop
  | stay (state : after.state = before.state) (timer : after.timerRtx = before.timerRtx)
  | leave (state : after.state.waiting = false) (same : after.timerRtx.scheduled = before.timerRtx.scheduled)
  | enter (timer : DCCPRetransmitTimer) (state : after.state.waiting = true)
      (begun : after.timerRtx = (timer.init params.initialRtxTo params.maxRtxTo).backOff)
  | retry (state : before.state.waiting = true) (same : after.state = before.state)
      (again : after.timerRtx = before.timerRtx.backOff)

variable {params : DCCPParams} {agent before after : DCCPAgent} {tryPureAck : Bool}

theorem Effect.congr (effect : Effect params before after) (state : before.state = agent.state)
    (timer : before.timerRtx = agent.timerRtx) : Effect params agent after := by
  cases effect with
  | stay same kept => exact .stay (same.trans state) (kept.trans timer)
  | leave left same => exact .leave left (by rw [same, timer])
  | enter old entered begun => exact .enter old entered begun
  | retry waits same again => exact .retry (state ▸ waits) (same.trans state) (timer ▸ again)

theorem outputPermitted_effect {dataSize : ℤ} {answer : Answer} :
    Effect params agent (outputPermitted tryPureAck dataSize (agent.answered answer)).1 := .stay rfl rfl

theorem outputPacket_waiting (params : DCCPParams) (tryPureAck : Bool) (agent : DCCPAgent) (waits : agent.state.waiting = true) :
    (outputPacket params tryPureAck agent).1.state = agent.state ∧
      (outputPacket params tryPureAck agent).1.timerRtx = agent.timerRtx.backOff := by
  unfold outputPacket
  split <;> rename_i state <;> rw [state] at waits <;> first | exact ⟨rfl, rfl⟩ | exact absurd waits Bool.false_ne_true

theorem outputPacket_still (params : DCCPParams) (tryPureAck : Bool) (agent : DCCPAgent) (still : agent.state.waiting = false) :
    (outputPacket params tryPureAck agent).1.state = agent.state ∧
      (outputPacket params tryPureAck agent).1.timerRtx = agent.timerRtx := by
  unfold outputPacket
  split <;> rename_i state <;> rw [state] at still
  case h_3 =>
    dsimp only
    split_ifs <;> exact ⟨rfl, rfl⟩
  all_goals first | exact ⟨rfl, rfl⟩ | exact absurd still.symm Bool.false_ne_true

theorem outputPacket_effect : Effect params agent (outputPacket params tryPureAck agent).1 := by
  cases waits : agent.state.waiting with
  | true =>
    obtain ⟨same, again⟩ := outputPacket_waiting params tryPureAck agent waits
    exact .retry waits same again
  | false =>
    obtain ⟨same, kept⟩ := outputPacket_still params tryPureAck agent waits
    exact .stay same kept

variable {newState : DCCPState} {result : DCCPAgent × List Frame}

theorem changeState_waiting (waits : newState.waiting = true) (done : changeState params newState agent = some after) :
    after.state = newState ∧ ∃ timer : DCCPRetransmitTimer, after.timerRtx = timer.init params.initialRtxTo params.maxRtxTo := by
  cases newState with
  | request | closereq | closing =>
    cases Option.some.inj done
    exact ⟨rfl, _, rfl⟩
  | closed | listen | respond | «open» => exact absurd waits Bool.false_ne_true

theorem changeState_still (still : newState.waiting = false) (done : changeState params newState agent = some after) :
    after.state = newState ∧ after.timerRtx.scheduled = agent.timerRtx.scheduled := by
  cases newState with
  | request | closereq | closing => exact absurd still.symm Bool.false_ne_true
  | closed | listen | «open» =>
    cases Option.some.inj done
    exact ⟨rfl, rfl⟩
  | respond =>
    obtain ⟨status, _, made⟩ := Option.map_eq_some_iff.mp done
    cases made
    exact ⟨rfl, rfl⟩

theorem changeState_leave (still : newState.waiting = false) (done : changeState params newState agent = some after) :
    Effect params agent after := by
  obtain ⟨state, same⟩ := changeState_still still done
  exact .leave (state ▸ still) same

theorem changeStateOutput_effect (waits : newState.waiting = true) (done : changeStateOutput params newState agent = some result) :
    Effect params agent result.1 := by
  obtain ⟨changed, entered, sent⟩ := Option.map_eq_some_iff.mp done
  obtain ⟨state, timer, begun⟩ := changeState_waiting waits entered
  obtain ⟨same, again⟩ := outputPacket_waiting params false changed (state ▸ waits)
  cases sent
  exact .enter timer (by rw [same, state, waits]) (by rw [again, begun])

theorem reset_left (done : reset params agent = some after) :
    after.state.waiting = false ∧ after.timerRtx.scheduled = agent.timerRtx.scheduled := by
  unfold reset at done
  obtain ⟨listening, first, rest⟩ := Option.bind_eq_some_iff.mp done
  obtain ⟨closed, second, last⟩ := Option.bind_eq_some_iff.mp rest
  cases Option.some.inj last
  have listened : listening.timerRtx.scheduled = agent.timerRtx.scheduled := by
    split_ifs at first
    · exact (changeState_still (by rfl) first).2
    · cases Option.some.inj first
      rfl
  show closed.state.waiting = false ∧ closed.timerRtx.scheduled = agent.timerRtx.scheduled
  split_ifs at second with other
  · obtain ⟨state, same⟩ := changeState_still (by rfl) second
    exact ⟨by rw [state]; rfl, same.trans listened⟩
  · cases Option.some.inj second
    rcases Decidable.or_iff_not_not_and_not.mpr other with state | state <;> exact ⟨by rw [state]; rfl, listened⟩

theorem reset_effect (done : (reset params agent).map (fun agent => (agent, [])) = some result) :
    Effect params agent result.1 := by
  obtain ⟨left, reset, made⟩ := Option.map_eq_some_iff.mp done
  cases made
  exact .leave (reset_left reset).1 (reset_left reset).2

theorem sendReset_stay : agent.sendReset.state = agent.state ∧ agent.sendReset.timerRtx = agent.timerRtx := by
  unfold sendReset
  split <;> exact ⟨rfl, rfl⟩

theorem sendResetReset_effect : Effect params agent agent.sendResetReset.1 := .stay sendReset_stay.1 sendReset_stay.2

theorem close_effect (done : close params agent = some result) : Effect params agent result.1 := by
  unfold close at done
  split at done
  case h_1 => exact changeStateOutput_effect rfl done
  case h_2 =>
    cases Option.some.inj done
    exact sendResetReset_effect
  case h_3 =>
    refine changeStateOutput_effect ?_ done
    split <;> rfl
  case h_4 =>
    obtain ⟨left, reset, rest⟩ := Option.bind_eq_some_iff.mp done
    obtain ⟨closed, changed, last⟩ := Option.bind_eq_some_iff.mp rest
    cases Option.some.inj last
    obtain ⟨state, same⟩ := changeState_still (by rfl) changed
    exact .leave (by rw [state]; rfl) (same.trans (reset_left reset).2)
  all_goals
    cases Option.some.inj done
    exact .stay rfl rfl

theorem listen_effect (done : listen params agent = some result) : Effect params agent result.1 := by
  unfold listen at done
  split_ifs at done
  · obtain ⟨listening, changed, made⟩ := Option.map_eq_some_iff.mp done
    cases made
    exact (changeState_leave (by rfl) changed).congr rfl rfl
  · cases Option.some.inj done
    exact .stay rfl rfl

theorem connectOrSend_effect (done : connectOrSend params agent = some result) : Effect params agent result.1 := by
  unfold connectOrSend at done
  split at done
  · exact changeStateOutput_effect rfl done
  · cases Option.some.inj done
    exact outputPacket_effect
  · cases Option.some.inj done
    exact .stay rfl rfl

theorem Effect.returned {first : DCCPAgent × List Frame} (effect : Effect params agent first.1) (same : some first = some result) :
    Effect params agent result.1 := Option.some.inj same ▸ effect

theorem Effect.idle {frames : List Frame} (same : some (agent, frames) = some result) : Effect params agent result.1 :=
  Effect.returned (.stay rfl rfl) same

theorem sbAdd_stay {bytes : ℤ} :
    (sbAdd params bytes agent).state = agent.state ∧ (sbAdd params bytes agent).timerRtx = agent.timerRtx := by
  unfold sbAdd
  split <;> exact ⟨rfl, rfl⟩

theorem sendmsg_effect {nbytes : ℤ} {eof : Bool} (done : sendmsg params nbytes eof agent = some result) :
    Effect params agent result.1 := by
  unfold sendmsg at done
  by_cases infinite : agent.infiniteSend = true
  · rw [if_pos infinite] at done
    exact .idle done
  rw [if_neg infinite] at done
  by_cases none : nbytes = 0
  · simp only [if_pos none] at done
    split at done <;> exact .idle done
  simp only [if_neg none] at done
  split at done
  case h_5 | h_6 | h_7 => exact .idle done
  all_goals
    refine (connectOrSend_effect done).congr ?_ ?_ <;> split_ifs <;> first | rfl | exact sbAdd_stay.1 | exact sbAdd_stay.2

theorem advanceby_effect {delta : ℤ} (done : advanceby params delta agent = some result) : Effect params agent result.1 := by
  unfold advanceby at done
  split_ifs at done
  · exact .idle done
  split at done
  case h_5 | h_6 | h_7 => exact .idle done
  all_goals exact (connectOrSend_effect done).congr rfl rfl

theorem freeSend_effect : Effect params agent (freeSend params agent).1 := by
  unfold freeSend
  split
  · exact outputPacket_effect
  · exact .stay rfl rfl

/-- A packet that makes the agent close sends the first closing packet. -/
theorem closing_effect (done : (changeState params .closing agent).map
    (fun agent => freeSend params { agent with output := true }) = some result) : Effect params agent result.1 := by
  obtain ⟨changed, entered, sent⟩ := Option.map_eq_some_iff.mp done
  obtain ⟨state, timer, begun⟩ := changeState_waiting (by rfl) entered
  cases sent
  obtain ⟨same, again⟩ := outputPacket_waiting params changed.outputFlag { changed with output := true } (by rw [state]; rfl)
  exact .enter timer (by rw [freeSend, if_pos rfl, same, state]; rfl) (by rw [freeSend, if_pos rfl, again, begun])

/-- A packet that moves the agent on to `RESPOND` or `OPEN` stops its retransmissions. -/
theorem moved_on {next : DCCPAgent → DCCPAgent × List Frame} (still : newState.waiting = false)
    (done : (changeState params newState agent).map next = some result)
    (kept : ∀ changed : DCCPAgent, changed.state = newState →
      (next changed).1.state = newState ∧ (next changed).1.timerRtx = changed.timerRtx) : Effect params agent result.1 := by
  obtain ⟨changed, entered, sent⟩ := Option.map_eq_some_iff.mp done
  obtain ⟨state, same⟩ := changeState_still still entered
  obtain ⟨stays, timer⟩ := kept changed state
  cases sent
  exact .leave (stays ▸ still) (by rw [timer, same])

theorem freeSend_still (params : DCCPParams) (agent : DCCPAgent) (still : agent.state.waiting = false) :
    (freeSend params agent).1.state = agent.state ∧ (freeSend params agent).1.timerRtx = agent.timerRtx := by
  unfold freeSend
  split
  · exact outputPacket_still params agent.outputFlag agent still
  · exact ⟨rfl, rfl⟩

theorem recvState_effect {packet : DCCPPacket} (done : recvState params packet agent = some result) :
    Effect params agent result.1 := by
  unfold recvState at done
  dsimp only at done
  split at done
  case h_1 => exact .idle done
  case h_2 =>
    split_ifs at done
    · refine (moved_on (by rfl) done fun changed state => ?_).congr rfl rfl
      have sent := freeSend_still params { changed with output := true } (by rw [state]; rfl)
      exact ⟨sent.1.trans state, sent.2⟩
    · exact .idle done
  case h_3 =>
    split_ifs at done
    · have sent : Effect params agent (freeSend params { agent with output := true }).1 := freeSend_effect.congr rfl rfl
      exact sent.returned done
    · exact sendResetReset_effect.returned done
    · exact (moved_on (by rfl) done fun changed state => ⟨state, rfl⟩).congr rfl rfl
    · exact .idle done
  case h_4 =>
    split_ifs at done
    · exact sendResetReset_effect.returned done
    · exact closing_effect done
    · exact .idle done
    · exact .idle done
  case h_5 =>
    split_ifs at done
    · refine (moved_on (by rfl) done fun changed state => ?_).congr rfl rfl
      have sent := freeSend_still params
        { changed with sendAck := true, ackNum := changed.seqNumRecv, output := true } (by rw [state]; rfl)
      exact ⟨sent.1.trans state, sent.2⟩
    · exact sendResetReset_effect.returned done
    · exact .idle done
  case h_6 =>
    split_ifs at done
    · exact sendResetReset_effect.returned done
    · exact .idle done
    · exact .idle done
  case h_7 =>
    split_ifs at done
    · exact closing_effect done
    · exact .idle done
    · exact .idle done

theorem checkPacket_stay {packet : DCCPPacket} :
    (checkPacket packet agent).2.state = agent.state ∧ (checkPacket packet agent).2.timerRtx = agent.timerRtx := by
  unfold checkPacket
  dsimp only
  split_ifs <;> exact ⟨rfl, rfl⟩

theorem recv_effect {packet : DCCPPacket} (done : recv params packet agent = some result) : Effect params agent result.1 := by
  unfold recv at done
  dsimp only at done
  generalize checking : checkPacket _ _ = checked at done
  have state : checked.2.state = agent.state := by rw [← checking]; exact checkPacket_stay.1
  have timer : checked.2.timerRtx = agent.timerRtx := by rw [← checking]; exact checkPacket_stay.2
  suffices effect : Effect params checked.2 result.1 from effect.congr state timer
  split_ifs at done
  · exact .idle done
  · exact reset_effect done
  · exact recvState_effect done
  split at done
  · exact sendResetReset_effect.returned done
  · exact reset_effect done
  · refine (recvState_effect done).congr ?_ ?_ <;> split <;> rfl

end DCCPAgent

open DCCPAgent

variable {params : DCCPParams} {agent : DCCPAgent} {result : DCCPAgent × List Frame}

theorem Call.perform_effect {call : Call} (done : call.perform params agent = some result) : Effect params agent result.1 := by
  cases call with
  | sendmsg nbytes eof => exact sendmsg_effect done
  | advanceby delta => exact advanceby_effect done
  | close => exact close_effect done
  | listen => exact listen_effect done
  | recv packet => exact recv_effect done
  | output tryPureAck => exact outputPacket_effect.returned done

theorem Frame.resume_effect {answer : Answer} {frame : Frame} (going : frame ≠ .handledRtx)
    (done : frame.resume params answer agent = some result) : Effect params agent result.1 := by
  cases frame with
  | askPermToSend tryPureAck dataSize =>
    unfold Frame.resume at done
    dsimp only at done
    split_ifs at done
    · exact outputPermitted_effect.returned done
    all_goals exact Effect.returned (.stay rfl rfl) done
  | askPermToSendAck tryPureAck =>
    unfold Frame.resume at done
    dsimp only at done
    split_ifs at done
    · exact outputPermitted_effect.returned done
    · exact Effect.returned (.stay rfl rfl) done
  | packetSent | recvPacketRecv | sendPacketRecv => exact Effect.returned (.stay rfl rfl) done
  | send | idle | recvBytes => exact .idle done
  | sent tryPureAck tellApp moreToSend =>
    unfold Frame.resume at done
    dsimp only at done
    split_ifs at done
    · exact .idle done
    · exact outputPacket_effect.returned done
    · exact .idle done
  | closeOnEmpty =>
    unfold Frame.resume at done
    dsimp only at done
    split_ifs at done
    · exact close_effect done
    · exact .idle done
  | freeSend => exact freeSend_effect.returned done
  | reset => exact reset_effect done
  | handledRtx => exact absurd rfl going
  | handledSnd => exact Effect.returned (.stay rfl rfl) done

end Ns2
