import Ns2.Dccp.Agent

namespace Ns2

namespace DCCPAgent

variable {params : DCCPParams} {agent after : DCCPAgent} {tryPureAck : Bool} {newState : DCCPState} {result : DCCPAgent × List Frame}
  {packet : DCCPPacket}

@[simp] theorem outputPacket_server : (outputPacket params tryPureAck agent).1.server = agent.server := by
  unfold outputPacket
  split
  case h_3 =>
    dsimp only
    split_ifs <;> rfl
  all_goals rfl

theorem changeState_server (done : changeState params newState agent = some after) : after.server = agent.server := by
  cases newState with
  | respond =>
    obtain ⟨status, _, made⟩ := Option.map_eq_some_iff.mp done
    cases made
    rfl
  | request | closereq | closing | closed | listen | «open» =>
    cases Option.some.inj done
    rfl

theorem changeState_state (done : changeState params newState agent = some after) : after.state = newState := by
  cases newState with
  | respond =>
    obtain ⟨status, _, made⟩ := Option.map_eq_some_iff.mp done
    cases made
    rfl
  | request | closereq | closing | closed | listen | «open» =>
    cases Option.some.inj done
    rfl

theorem outputPacket_state : (outputPacket params tryPureAck agent).1.state = agent.state := by
  unfold outputPacket
  split <;> rename_i state
  case h_3 =>
    dsimp only
    split_ifs <;> rfl
  all_goals rfl

/-- The slip: an agent that was reset is no server, whatever it was before. -/
theorem reset_server (done : reset params agent = some after) : after.server = false := by
  unfold reset at done
  obtain ⟨_, _, rest⟩ := Option.bind_eq_some_iff.mp done
  obtain ⟨_, _, last⟩ := Option.bind_eq_some_iff.mp rest
  cases Option.some.inj last
  rfl

theorem changeStateOutput_server (done : changeStateOutput params newState agent = some result) : result.1.server = agent.server := by
  obtain ⟨changed, entered, sent⟩ := Option.map_eq_some_iff.mp done
  cases sent
  rw [outputPacket_server, changeState_server entered]

theorem sendReset_server : agent.sendReset.server = agent.server := by
  unfold sendReset
  split <;> rfl

theorem close_server (other : agent.state ≠ .listen) (done : close params agent = some result) : result.1.server = agent.server := by
  unfold close at done
  split at done <;> rename_i state
  · exact changeStateOutput_server done
  · cases Option.some.inj done
    exact sendReset_server
  · exact changeStateOutput_server done
  · exact absurd state other
  all_goals
    cases Option.some.inj done
    rfl

/-- A server answers `close` in an open connection with CLOSEREQ, everyone else with CLOSE. -/
theorem close_open (opened : agent.state = .open) (done : close params agent = some result) :
    result.1.state = if agent.server then .closereq else .closing := by
  unfold close at done
  rw [opened] at done
  obtain ⟨changed, entered, sent⟩ := Option.map_eq_some_iff.mp done
  cases sent
  rw [outputPacket_state, changeState_state entered]

/-- What is not accepted for its type fails the check. -/
theorem checkPacket_refused (refused : agent.acceptsType packet = false) : (checkPacket packet agent).1 = false := by
  unfold checkPacket
  dsimp only
  split_ifs with _ _ _ accepted
  · rfl
  · rfl
  · rfl
  · rw [refused] at accepted
    cases accepted
  · rfl

/-- In an open connection, a server alone rejects a CLOSEREQ. -/
theorem acceptsType_closereq (opened : agent.state = .open) (type : packet.type = .closereq) : agent.acceptsType packet = !agent.server := by
  unfold acceptsType
  rw [type, opened]
  simp

theorem listen_server (serving : agent.server = true) (done : listen params agent = some result) : result.1.server = true := by
  unfold listen at done
  split_ifs at done
  · obtain ⟨changed, entered, made⟩ := Option.map_eq_some_iff.mp done
    cases made
    exact changeState_server entered
  · cases Option.some.inj done
    exact serving

theorem connectOrSend_server (done : connectOrSend params agent = some result) : result.1.server = agent.server := by
  unfold connectOrSend at done
  split at done
  · exact changeStateOutput_server done
  · cases Option.some.inj done
    exact outputPacket_server
  · cases Option.some.inj done
    rfl

theorem sbAdd_server {bytes : ℤ} : (sbAdd params bytes agent).server = agent.server := by
  unfold sbAdd
  split <;> rfl

theorem idle_server {frames : List Frame} (same : some (agent, frames) = some result) : result.1.server = agent.server := by
  cases Option.some.inj same
  rfl

theorem sendmsg_server {nbytes : ℤ} {eof : Bool} (done : sendmsg params nbytes eof agent = some result) : result.1.server = agent.server := by
  unfold sendmsg at done
  by_cases infinite : agent.infiniteSend = true
  · rw [if_pos infinite] at done
    exact idle_server done
  rw [if_neg infinite] at done
  by_cases none : nbytes = 0
  · simp only [if_pos none] at done
    split at done <;> exact idle_server done
  simp only [if_neg none] at done
  split at done
  case h_5 | h_6 | h_7 => exact idle_server done
  all_goals
    refine (connectOrSend_server done).trans ?_
    split_ifs <;> first | rfl | exact sbAdd_server

theorem advanceby_server {delta : ℤ} (done : advanceby params delta agent = some result) : result.1.server = agent.server := by
  unfold advanceby at done
  split_ifs at done
  · exact idle_server done
  split at done
  case h_5 | h_6 | h_7 => exact idle_server done
  all_goals exact (connectOrSend_server done).trans rfl

theorem freeSend_server : (freeSend params agent).1.server = agent.server := by
  unfold freeSend
  split
  · exact outputPacket_server
  · rfl

/-- What follows a change of state does not change the role either. -/
theorem moved_server {next : DCCPAgent → DCCPAgent × List Frame} (done : (changeState params newState agent).map next = some result)
    (kept : ∀ changed, (next changed).1.server = changed.server) : result.1.server = agent.server := by
  obtain ⟨changed, entered, sent⟩ := Option.map_eq_some_iff.mp done
  cases sent
  rw [kept, changeState_server entered]

theorem recvState_server (done : recvState params packet agent = some result) : result.1.server = agent.server := by
  have refused : some agent.sendResetReset = some result → result.1.server = agent.server := by
    rintro ⟨⟩
    exact sendReset_server
  unfold recvState at done
  dsimp only at done
  split at done
  case h_1 => exact idle_server done
  case h_2 =>
    split_ifs at done
    · refine (moved_server done fun _ => ?_).trans rfl
      exact freeSend_server
    · exact idle_server done
  case h_3 =>
    split_ifs at done
    · cases Option.some.inj done
      exact freeSend_server
    · exact refused done
    · refine (moved_server done fun _ => ?_).trans rfl
      rfl
    · exact idle_server done
  case h_4 =>
    split_ifs at done
    · exact refused done
    · refine (moved_server done fun _ => ?_).trans rfl
      exact freeSend_server
    · exact idle_server done
    · exact idle_server done
  case h_5 =>
    split_ifs at done
    · refine (moved_server done fun _ => ?_).trans rfl
      exact freeSend_server
    · exact refused done
    · exact idle_server done
  case h_6 =>
    split_ifs at done
    · exact refused done
    · exact idle_server done
    · exact idle_server done
  case h_7 =>
    split_ifs at done
    · refine (moved_server done fun _ => ?_).trans rfl
      exact freeSend_server
    · exact idle_server done
    · exact idle_server done

theorem checkPacket_server : (checkPacket packet agent).2.server = agent.server := by
  unfold checkPacket
  dsimp only
  split_ifs <;> rfl

/-- Whether `recv` itself calls `reset`: for a packet that passes the check and
is a RESET, or has an option on which the connection fails without one. -/
def recvResets (packet : DCCPPacket) (agent : DCCPAgent) : Bool :=
  (checkPacket packet.measured { agent with output := false, outputFlag := false }).1 &&
    (packet.type = .reset || packet.type ≠ .closereq && packet.type ≠ .close && packet.options = .failed false)

theorem recv_server (done : recv params packet agent = some result) :
    result.1.server = (agent.server && !agent.recvResets packet) := by
  have cleared : ∀ {agent : DCCPAgent}, (agent.reset params).map (fun agent => (agent, ([] : List Frame))) = some result →
      result.1.server = false := by
    intro agent done
    obtain ⟨left, reset, made⟩ := Option.map_eq_some_iff.mp done
    cases made
    exact reset_server reset
  have type : packet.measured.type = packet.type := rfl
  have options : packet.measured.options = packet.options := rfl
  unfold recv at done
  dsimp only at done
  unfold recvResets
  generalize checking : checkPacket packet.measured { agent with output := false, outputFlag := false } = checked at done
  have server : checked.2.server = agent.server := by
    rw [← checking]
    exact checkPacket_server
  cases passed : checked.1 with
  | false =>
    rw [passed] at done
    rw [idle_server done, server]
    simp
  | true =>
    rw [passed, if_neg (by decide), type] at done
    by_cases reset : packet.type = .reset
    · rw [if_pos reset] at done
      rw [cleared done, reset]
      simp
    rw [if_neg reset] at done
    by_cases closing : packet.type = .closereq ∨ packet.type = .close
    · rw [if_pos closing] at done
      rw [recvState_server done, server]
      rcases closing with type | type <;> simp [type]
    rw [if_neg closing, options] at done
    split at done <;> rename_i parsed <;> rw [parsed]
    · cases Option.some.inj done
      rw [sendResetReset, sendReset_server, server]
      simp [reset]
    · rw [cleared done]
      have others : packet.type ≠ .closereq ∧ packet.type ≠ .close := not_or.mp closing
      simp [others]
    · rw [recvState_server done]
      have kept : ∀ {c : Bool}, (if c then { checked.2 with sendAck := true, ackNum := checked.2.seqNumRecv } else checked.2).server =
          agent.server := by
        intro c
        split <;> exact server
      rw [kept]
      simp [reset]

end DCCPAgent

open DCCPAgent

variable {params : DCCPParams} {agent : DCCPAgent} {result : DCCPAgent × List Frame}

/-- Whether a call executes `reset` itself. -/
def Call.resets (agent : DCCPAgent) : Call → Bool
  | recv packet => agent.recvResets packet
  | close => agent.state = .listen
  | _ => false

/-- Whether the code at the top goes on to a `reset`. -/
def Frame.resets (agent : DCCPAgent) : Frame → Bool
  | reset => true
  | closeOnEmpty => agent.closeOnEmpty && agent.state = .listen
  | _ => false

theorem close_resets (serving : agent.server = true) (done : close params agent = some result) :
    result.1.server = !decide (agent.state = .listen) := by
  by_cases listening : agent.state = .listen
  · unfold close at done
    rw [listening] at done
    obtain ⟨left, cleared, rest⟩ := Option.bind_eq_some_iff.mp done
    obtain ⟨closed, entered, made⟩ := Option.bind_eq_some_iff.mp rest
    cases Option.some.inj made
    rw [changeState_server entered, reset_server cleared, decide_eq_true listening]
    rfl
  · rw [close_server listening done, serving, decide_eq_false listening]
    rfl

theorem Call.perform_server {call : Call} (serving : agent.server = true) (done : call.perform params agent = some result) :
    result.1.server = !call.resets agent := by
  cases call with
  | sendmsg nbytes eof => exact (sendmsg_server done).trans serving
  | advanceby delta => exact (advanceby_server done).trans serving
  | close => exact close_resets serving done
  | listen => exact listen_server serving done
  | recv packet =>
    rw [recv_server done, serving]
    exact Bool.true_and _
  | output tryPureAck =>
    cases Option.some.inj done
    exact outputPacket_server.trans serving

theorem Frame.resume_server {answer : Answer} {frame : Frame} (serving : agent.server = true)
    (done : frame.resume params answer agent = some result) : result.1.server = !frame.resets agent := by
  cases frame with
  | askPermToSend tryPureAck dataSize =>
    unfold Frame.resume at done
    dsimp only at done
    split_ifs at done <;> cases Option.some.inj done <;> exact serving
  | askPermToSendAck tryPureAck =>
    unfold Frame.resume at done
    dsimp only at done
    split_ifs at done <;> cases Option.some.inj done <;> exact serving
  | packetSent | recvPacketRecv | sendPacketRecv | send | idle | recvBytes | handledRtx | handledSnd =>
    cases Option.some.inj done
    exact serving
  | sent tryPureAck tellApp moreToSend =>
    dsimp only [Frame.resume] at done
    split_ifs at done <;> cases Option.some.inj done <;> first | exact serving | exact outputPacket_server.trans serving
  | closeOnEmpty =>
    dsimp only [Frame.resume] at done
    dsimp only [Frame.resets]
    split_ifs at done with wanted
    · rw [wanted, Bool.true_and]
      exact close_resets serving done
    · cases Option.some.inj done
      rw [Bool.eq_false_iff.mpr wanted, Bool.false_and]
      exact serving
  | freeSend =>
    cases Option.some.inj done
    exact freeSend_server.trans serving
  | reset =>
    obtain ⟨left, cleared, made⟩ := Option.map_eq_some_iff.mp done
    cases made
    exact reset_server cleared

theorem timeoutRtx_server (serving : agent.server = true) (done : timeoutRtx params agent = some result) :
    result.1.server = !(agent.state = .closing && agent.timerRtx.backoffFailed) := by
  unfold timeoutRtx at done
  split at done <;> rename_i state <;> rw [state]
  · cases Option.some.inj done
    exact sendReset_server.trans serving
  · split_ifs at done <;> cases Option.some.inj done
    · exact sendReset_server.trans serving
    · exact outputPacket_server.trans serving
  · split_ifs at done <;> cases Option.some.inj done
    · exact sendReset_server.trans serving
    · exact outputPacket_server.trans serving
  · split_ifs at done with failed
    · obtain ⟨left, cleared, made⟩ := Option.map_eq_some_iff.mp done
      cases made
      rw [reset_server cleared, failed]
      rfl
    · cases Option.some.inj done
      rw [Bool.eq_false_iff.mpr failed]
      exact outputPacket_server.trans serving
  all_goals cases done

namespace DCCPConfig

variable {config next : DCCPConfig} {event : Event}

/-- Whether a step executes `reset` itself. -/
def Event.resets (config : DCCPConfig) : Event → Bool
  | .call request => request.resets config.agent
  | resume _ => config.stack.head?.any fun frame => frame.resets config.agent
  | rtxExpires => config.agent.state = .closing && config.agent.timerRtx.backoffFailed
  | sndExpires => false

/-- One step takes the role from a server exactly if it executes `reset`. -/
theorem step_server (serving : config.agent.server = true) (taken : config.step params event = some next) :
    next.agent.server = !event.resets config := by
  cases event with
  | call call =>
    unfold step at taken
    dsimp only at taken
    split_ifs at taken
    obtain ⟨result, done, made⟩ := Option.map_eq_some_iff.mp taken
    cases made
    exact Call.perform_server serving done
  | resume answer =>
    unfold step at taken
    dsimp only at taken
    split at taken
    · cases taken
    · rename_i frame rest stack
      obtain ⟨result, done, made⟩ := Option.map_eq_some_iff.mp taken
      cases made
      rw [Event.resets, stack]
      exact Frame.resume_server serving done
  | rtxExpires =>
    unfold step at taken
    dsimp only at taken
    split_ifs at taken
    obtain ⟨result, done, made⟩ := Option.map_eq_some_iff.mp taken
    cases made
    refine (timeoutRtx_server ?_ done).trans rfl
    exact serving
  | sndExpires =>
    unfold step at taken
    dsimp only at taken
    split_ifs at taken
    obtain ⟨result, done, made⟩ := Option.map_eq_some_iff.mp taken
    cases made
    unfold timeoutSnd at done
    split at done
    · cases Option.some.inj done
      refine outputPacket_server.trans ?_
      exact serving
    · cases done

/-- What is meant by an agent in the role of a server. -/
structure Serves (params : DCCPParams) (agent : DCCPAgent) : Prop where
  server : agent.server = true
  answers : agent.state = .open → ∀ result, agent.close params = some result → result.1.state = .closereq
  rejects : agent.state = .open → ∀ packet : DCCPPacket, packet.type = .closereq → (agent.checkPacket packet).1 = false

theorem serves_iff : Serves params agent ↔ agent.server = true := by
  refine ⟨Serves.server, fun serving => ⟨serving, ?_, ?_⟩⟩
  · intro opened result done
    rw [close_open opened done, serving]
    rfl
  · intro opened packet type
    refine checkPacket_refused ?_
    rw [acceptsType_closereq opened type, serving]
    rfl

/-- What is meant by an agent that stays a server: it is one after every part of
the run, and a `reset` leaves it listening as one. -/
def StaysServer (params : DCCPParams) (listening : DCCPConfig) (events : List Event) : Prop :=
  ∀ first later config outs, events = first ++ later → (machine params).run listening first = some (config, outs) →
    Serves params config.agent ∧
      ∀ event ∈ later.head?, event.resets config → ∀ next, config.step params event = some next →
        next.agent.state = .listen ∧ next.agent.server = true

theorem staysServer_cons {events : List Event} (taken : config.step params event = some next) :
    StaysServer params config (event :: events) ↔
      Serves params config.agent ∧ (event.resets config → next.agent.state = .listen ∧ next.agent.server = true) ∧
        StaysServer params next events := by
  have step : (machine params).step config event = some (next, ()) := by
    show Option.map _ _ = _
    rw [taken]
    rfl
  constructor
  · intro stays
    obtain ⟨serves, resets⟩ := stays [] (event :: events) config [] rfl rfl
    refine ⟨serves, fun reset => resets event rfl reset next taken, fun first later last outs split ran => ?_⟩
    refine stays (event :: first) later last (() :: outs) (by rw [split]; rfl) ?_
    rw [Machine.run_cons step, ran]
    rfl
  · rintro ⟨serves, resets, stays⟩ first later last outs split ran
    cases first with
    | nil =>
      cases Option.some.inj ran
      obtain rfl : later = event :: events := split.symm
      refine ⟨serves, fun event' member reset next' taken' => ?_⟩
      cases Option.some.inj member
      cases Option.some.inj (taken.symm.trans taken')
      exact resets reset
    | cons event' first =>
      obtain ⟨rfl, rest⟩ := List.cons.inj split
      rw [Machine.run_cons step] at ran
      obtain ⟨⟨last', outs'⟩, ran', same⟩ := Option.map_eq_some_iff.mp ran
      cases same
      exact stays first later _ outs' rest ran'

/-- A server stays one exactly as long as it is not reset. -/
theorem stays_server_iff {listening last : DCCPConfig} {events : List Event} {outs : List Unit} (serving : listening.agent.server = true)
    (ran : (machine params).run listening events = some (last, outs)) :
    StaysServer params listening events ↔ (machine params).Along (fun config event => event.resets config = false) listening events := by
  induction events generalizing listening outs with
  | nil =>
    refine ⟨fun _ => trivial, fun _ first later config outs split ran => ?_⟩
    obtain ⟨rfl, rfl⟩ := List.nil_eq_append_iff.mp split
    cases Option.some.inj ran
    exact ⟨serves_iff.mpr serving, fun event member => by cases member⟩
  | cons event events ih =>
    obtain ⟨⟨next, out⟩, step, rest⟩ := Option.bind_eq_some_iff.mp ran
    obtain ⟨⟨final, outs'⟩, ran', same⟩ := Option.bind_eq_some_iff.mp rest
    cases Option.some.inj same
    obtain ⟨next', taken, made⟩ := Option.map_eq_some_iff.mp step
    cases made
    have role := step_server serving taken
    have along : (machine params).Along (fun config event => event.resets config = false) listening (event :: events) ↔
        event.resets listening = false ∧ (machine params).Along (fun config event => event.resets config = false) next events := by
      rw [Machine.Along, step]
    rw [staysServer_cons taken, along]
    cases reset : event.resets listening with
    | true =>
      -- the reset has taken the role
      rw [reset] at role
      refine ⟨fun stays => ?_, fun stays => by cases stays.1⟩
      have kept := (stays.2.1 rfl).2
      rw [role] at kept
      cases kept
    | false =>
      rw [reset] at role
      rw [ih role ran']
      exact ⟨fun stays => ⟨rfl, stays.2.2⟩, fun stays => ⟨serves_iff.mpr serving, fun none => (by cases none), stays.2⟩⟩

/-- An agent on which `listen` has been called. -/
def listening : DCCPConfig := ⟨{ DCCPAgent.new ⟨.idle, 0, 0, 0, false, []⟩ with state := .listen, server := true }, []⟩

/-- The packets and calls of a connection that comes to an idle server. -/
def connection : List Event :=
  let answer : Answer := ⟨false, false, 0, false, false⟩
  [.call (.recv ⟨.request, false, 1, 0, 0, .parsed false⟩), .resume answer, .resume answer,
    .call (.recv ⟨.ack, false, 2, 0, 0, .parsed false⟩), .resume answer, .resume answer]

theorem stays_server_iff_sample : StaysServer ⟨3, 75, 1000, 1000⟩ listening (connection ++ [.call .close]) ↔
    (machine ⟨3, 75, 1000, 1000⟩).Along (fun config event => event.resets config = false) listening (connection ++ [.call .close]) := by
  have runs : ((machine ⟨3, 75, 1000, 1000⟩).run listening (connection ++ [.call .close])).isSome = true := by decide +kernel
  obtain ⟨⟨last, outs⟩, ran⟩ := Option.isSome_iff_exists.mp runs
  exact stays_server_iff rfl ran

/-- A first connection comes and is reset, a second one comes and is closed by
the application. -/
def twoConnections : List Event :=
  connection ++ [.call (.recv ⟨.reset, false, 3, 0, 0, .parsed false⟩)] ++ connection ++ [.call .close]

/-- The agent answers the second `close` as a client. -/
theorem twoConnections_client : (new ⟨.idle, 0, 0, 0, false, []⟩).step ⟨3, 75, 1000, 1000⟩ (.call .listen) = some listening ∧
    ((machine ⟨3, 75, 1000, 1000⟩).run listening twoConnections).map (fun last => (last.1.agent.state, last.1.agent.server)) =
      some (.closing, false) ∧
    ¬StaysServer ⟨3, 75, 1000, 1000⟩ listening twoConnections := by
  have closes : ((machine ⟨3, 75, 1000, 1000⟩).run listening twoConnections).map (fun last => (last.1.agent.state, last.1.agent.server)) =
      some (.closing, false) := by decide +kernel
  refine ⟨rfl, closes, fun stays => ?_⟩
  obtain ⟨⟨last, outs⟩, ran, same⟩ := Option.map_eq_some_iff.mp closes
  have role := (stays twoConnections [] last outs (List.append_nil _).symm ran).1.server
  rw [(Prod.mk.inj same).2] at role
  cases role

end DCCPConfig

end Ns2
