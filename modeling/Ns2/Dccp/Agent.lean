import Mathlib.Algebra.Order.Field.Rat
import Ns2.Common.TimerHandler

namespace Ns2

/-- The code keeps the sum of the delays in `totDelay`; `scheduled` lists
those that `backOff` has given to the scheduler since `init`. -/
structure DCCPRetransmitTimer where
  status : TimerStatus
  delay : ℚ
  totDelay : ℚ
  maxTotDelay : ℚ
  backoffFailed : Bool
  scheduled : List ℚ
  deriving DecidableEq

namespace DCCPRetransmitTimer

def forceCancel (timer : DCCPRetransmitTimer) : DCCPRetransmitTimer := { timer with status := timer.status.forceCancel }

/-- `handle` before it calls `expire`, and after `expire` has returned. -/
def handling (timer : DCCPRetransmitTimer) : DCCPRetransmitTimer := { timer with status := .handling }

def handled (timer : DCCPRetransmitTimer) : DCCPRetransmitTimer := { timer with status := timer.status.handled }

def init (delay maxTotDelay : ℚ) (timer : DCCPRetransmitTimer) : DCCPRetransmitTimer where
  status := timer.status.forceCancel
  delay := delay
  totDelay := 0
  maxTotDelay := maxTotDelay
  backoffFailed := false
  scheduled := []

def resched (timer : DCCPRetransmitTimer) : DCCPRetransmitTimer :=
  { timer with status := .pending, scheduled := timer.delay :: timer.scheduled }

def backOff (timer : DCCPRetransmitTimer) : DCCPRetransmitTimer :=
  let timer :=
    if timer.totDelay = 0 then timer
    else if timer.totDelay + timer.delay * 2 ≤ timer.maxTotDelay then { timer with delay := timer.delay * 2 }
    else { timer with delay := timer.maxTotDelay - timer.totDelay, backoffFailed := true }
  let timer := { timer with totDelay := timer.totDelay + timer.delay }
  if 0 < timer.delay then timer.resched else timer

end DCCPRetransmitTimer

inductive DCCPState
  | closed
  | listen
  | respond
  | request
  | open
  | closereq
  | closing
  deriving DecidableEq

inductive DCCPPacketType
  | request
  | response
  | data
  | ack
  | dataack
  | closereq
  | close
  | reset
  deriving DecidableEq

/-- What `parseOptions` makes of the options of a packet: it may want a
negotiated feature confirmed with an acknowledgement, or it fails, with a
reset sent or without. -/
inductive ParsedOptions
  | parsed (confirm : Bool)
  | failed (resetSent : Bool)
  deriving DecidableEq

structure DCCPPacket where
  type : DCCPPacketType
  error : Bool
  seqNum : BitVec 32
  ackNum : BitVec 32
  dataSize : ℤ
  options : ParsedOptions
  deriving DecidableEq

/-- `recv` computes a data size for data packets only. -/
def DCCPPacket.measured (packet : DCCPPacket) : DCCPPacket :=
  { packet with dataSize := if packet.type = .data ∨ packet.type = .dataack then packet.dataSize else 0 }

/-- The bound variables that the connection logic reads. -/
structure DCCPParams where
  initialRtxTo : ℚ
  maxRtxTo : ℚ
  sbSize : ℕ
  size : ℤ

structure DCCPAgent where
  state : DCCPState
  server : Bool
  seqNum : BitVec 32
  seqNumRecv : BitVec 32
  ackNumRecv : BitVec 32
  ackNum : BitVec 32
  sendAck : Bool
  connEst : Bool
  output : Bool
  outputFlag : Bool
  infiniteSend : Bool
  closeOnEmpty : Bool
  packetSent : Bool
  packetRecv : Bool
  sb : List ℤ
  timerRtx : DCCPRetransmitTimer
  timerSnd : TimerStatus
  deriving DecidableEq

/-- What is still to be done in the functions that are being executed. The
first group are functions the agent is in the middle of calling and that run
outside of it: the virtual functions of a congestion control, the network and
the application. The second group is code of the agent that follows such a call. -/
inductive Frame
  | askPermToSend (tryPureAck : Bool) (dataSize : ℤ)
  | askPermToSendAck (tryPureAck : Bool)
  | packetSent
  | recvPacketRecv
  | sendPacketRecv
  | send
  | idle
  | recvBytes
  | sent (tryPureAck tellApp moreToSend : Bool)
  | closeOnEmpty
  | freeSend
  | reset
  | handledRtx
  | handledSnd
  deriving DecidableEq

def Frame.outside : Frame → Bool
  | askPermToSend _ _ | askPermToSendAck _ | packetSent | recvPacketRecv | sendPacketRecv | send | idle | recvBytes => true
  | sent _ _ _ | closeOnEmpty | freeSend | reset | handledRtx | handledSnd => false

/-- What a virtual function answers and the members it may leave changed. -/
structure Answer where
  perm : Bool
  sendAck : Bool
  ackNum : BitVec 32
  output : Bool
  outputFlag : Bool

namespace DCCPAgent

/-- A new agent. The constructor of its timer leaves the delays unset. -/
def new (unset : DCCPRetransmitTimer) : DCCPAgent where
  state := .closed
  server := false
  seqNum := 0
  seqNumRecv := 0
  ackNumRecv := 0
  ackNum := 0
  sendAck := false
  connEst := false
  output := false
  outputFlag := false
  infiniteSend := false
  closeOnEmpty := false
  packetSent := false
  packetRecv := false
  sb := []
  timerRtx := { unset with status := .idle, scheduled := [] }
  timerSnd := .idle

def answered (agent : DCCPAgent) (answer : Answer) : DCCPAgent :=
  { agent with sendAck := answer.sendAck, ackNum := answer.ackNum, output := answer.output, outputFlag := answer.outputFlag }

def cancelTimers (agent : DCCPAgent) : DCCPAgent :=
  { agent with timerSnd := agent.timerSnd.forceCancel, timerRtx := agent.timerRtx.forceCancel }

variable (params : DCCPParams)

def changeState (newState : DCCPState) (agent : DCCPAgent) : Option DCCPAgent :=
  let agent := { agent with state := newState }
  match newState with
  | .respond =>
    let timer := agent.timerRtx.forceCancel
    timer.status.sched.map fun status => { agent with timerRtx := { timer with status := status } }
  | .open => some { agent with timerRtx := agent.timerRtx.forceCancel }
  | .request | .closereq | .closing =>
    let agent := agent.cancelTimers
    some { agent with timerRtx := agent.timerRtx.init params.initialRtxTo params.maxRtxTo }
  | .closed | .listen => some agent

def reset (agent : DCCPAgent) : Option DCCPAgent := do
  let agent := agent.cancelTimers
  let agent ← (if agent.server then agent.changeState params .listen else some agent)
  let agent ← (if agent.state ≠ .listen ∧ agent.state ≠ .closed then agent.changeState params .closed else some agent)
  return { new agent.timerRtx with state := agent.state, timerRtx := agent.timerRtx, timerSnd := agent.timerSnd }

/-- `output` from its label `send` to the call of `send`. -/
def outputSend (tryPureAck tellCc tellApp : Bool) (agent : DCCPAgent) : DCCPAgent × List Frame :=
  let moreToSend := agent.state = .open && (agent.infiniteSend || !agent.sb.isEmpty)
  ({ agent with seqNum := agent.seqNum + 1 }, (if tellCc then [.packetSent] else []) ++ [.send, .sent tryPureAck tellApp moreToSend])

/-- `output` once the congestion control has given its permission. -/
def outputPermitted (tryPureAck : Bool) (dataSize : ℤ) (agent : DCCPAgent) : DCCPAgent × List Frame :=
  let remove := 0 < dataSize && !agent.infiniteSend
  let sb := if remove then agent.sb.tail else agent.sb
  outputSend tryPureAck true (remove && sb.isEmpty) { agent with sb := sb, sendAck := false }

def outputPacket (tryPureAck : Bool) (agent : DCCPAgent) : DCCPAgent × List Frame :=
  match agent.state with
  | .request =>
    outputSend tryPureAck false false { agent with packetSent := true, timerRtx := agent.timerRtx.backOff }
  | .respond => outputSend tryPureAck false false { agent with packetSent := true }
  | .open =>
    if agent.connEst then
      let dataSize := if agent.infiniteSend then params.size else agent.sb.headD 0
      if !agent.sendAck && dataSize = 0 then (agent, []) else (agent, [.askPermToSend tryPureAck dataSize])
    else outputSend tryPureAck false false { agent with sendAck := false, connEst := true }
  | .closereq | .closing => outputSend tryPureAck false false { agent with timerRtx := agent.timerRtx.backOff }
  | .closed | .listen => outputSend tryPureAck false false agent

/-- `sendReset` up to the call of `send`. -/
def sendReset (agent : DCCPAgent) : DCCPAgent :=
  if agent.state ≠ .closed ∧ agent.state ≠ .listen then { agent with seqNum := agent.seqNum + 1 } else agent

/-- `sendReset(..); reset();` -/
def sendResetReset (agent : DCCPAgent) : DCCPAgent × List Frame := (agent.sendReset, [.send, .reset])

/-- `changeState(..); output();` -/
def changeStateOutput (newState : DCCPState) (agent : DCCPAgent) : Option (DCCPAgent × List Frame) :=
  (agent.changeState params newState).map (outputPacket params false)

def close (agent : DCCPAgent) : Option (DCCPAgent × List Frame) :=
  match agent.state with
  | .respond => agent.changeStateOutput params .closereq
  | .request => some agent.sendResetReset
  | .open => agent.changeStateOutput params (if agent.server then .closereq else .closing)
  | .listen => do
    let agent ← agent.reset params
    let agent ← agent.changeState params .closed
    return (agent, [])
  | .closed | .closereq | .closing => some (agent, [])

def listen (agent : DCCPAgent) : Option (DCCPAgent × List Frame) :=
  if agent.state = .closed then
    ({ agent with server := true }.changeState params .listen).map fun agent => (agent, [])
  else some (agent, [])

def sbAdd (bytes : ℤ) (agent : DCCPAgent) : DCCPAgent :=
  if agent.sb.length < max 1 params.sbSize then { agent with sb := agent.sb ++ [bytes] } else agent

/-- The end of `sendmsg` and of `advanceby`: a closed agent begins a
connection, an open one sends. -/
def connectOrSend (agent : DCCPAgent) : Option (DCCPAgent × List Frame) :=
  match agent.state with
  | .closed => agent.changeStateOutput params .request
  | .open => some (outputPacket params false agent)
  | _ => some (agent, [])

def sendmsg (nbytes : ℤ) (eof : Bool) (agent : DCCPAgent) : Option (DCCPAgent × List Frame) :=
  if agent.infiniteSend then some (agent, [])
  else match agent.state with
  | .closed | .respond | .request | .open =>
    if nbytes = 0 then some (agent, [])
    else
      let agent := if 0 < nbytes then agent.sbAdd params nbytes else { agent with infiniteSend := true }
      let agent := if eof then { agent with closeOnEmpty := true } else agent
      agent.connectOrSend params
  | .listen | .closereq | .closing => some (agent, [])

def advanceby (delta : ℤ) (agent : DCCPAgent) : Option (DCCPAgent × List Frame) :=
  if delta ≤ 0 ∨ agent.infiniteSend then some (agent, [])
  else match agent.state with
  | .closed | .respond | .request | .open =>
    let count := min (max 1 params.sbSize - agent.sb.length) delta.toNat
    { agent with sb := agent.sb ++ List.replicate count params.size }.connectOrSend params
  | .listen | .closereq | .closing => some (agent, [])

def timeoutRtx (agent : DCCPAgent) : Option (DCCPAgent × List Frame) :=
  match agent.state with
  | .respond => some agent.sendResetReset
  | .request | .closereq =>
    if agent.timerRtx.backoffFailed then some agent.sendResetReset else some (outputPacket params false agent)
  | .closing =>
    if agent.timerRtx.backoffFailed then (agent.reset params).map fun agent => (agent, [])
    else some (outputPacket params false agent)
  | .closed | .listen | .open => none

def timeoutSnd (agent : DCCPAgent) : Option (DCCPAgent × List Frame) :=
  match agent.state with
  | .open => some (outputPacket params false agent)
  | _ => none

/-- The state's own condition on the packet in `checkPacket`. -/
def acceptsType (agent : DCCPAgent) (packet : DCCPPacket) : Bool :=
  let newPkt := agent.seqNumRecv < packet.seqNum
  if packet.type = .reset then true
  else match agent.state with
  | .closed => false
  | .listen => packet.type = .request
  | .respond => newPkt && packet.type = .request || packet.type = .close || newPkt && packet.type = .ack ||
      newPkt && packet.type = .dataack
  | .open => packet.type = .close || packet.type = .closereq && !agent.server || packet.type = .ack ||
      packet.type = .data || packet.type = .dataack
  | .request => packet.type = .response && packet.ackNum = agent.seqNum - 1 || packet.type = .close
  | .closereq => packet.type = .close || packet.type = .ack || packet.type = .data || packet.type = .dataack
  | .closing => packet.type = .closereq || packet.type = .ack || packet.type = .data || packet.type = .dataack

def checkPacket (packet : DCCPPacket) (agent : DCCPAgent) : Bool × DCCPAgent :=
  let ackRecv := packet.type ≠ .data ∧ packet.type ≠ .request
  if packet.error then (false, agent)
  else if ackRecv ∧ agent.packetSent ∧ agent.seqNum ≤ packet.ackNum then (false, agent)
  else if ackRecv ∧ ¬agent.packetSent ∧ ¬(packet.type = .reset ∧ packet.ackNum = 0) then (false, agent)
  else if agent.acceptsType packet then
    (true, { agent with
      seqNumRecv := if agent.seqNumRecv < packet.seqNum then packet.seqNum else agent.seqNumRecv
      ackNumRecv := if ackRecv ∧ agent.ackNumRecv < packet.ackNum then packet.ackNum else agent.ackNumRecv })
  else (false, agent)

/-- `recv` from its label `data`: the calls that lie before `free_send`. -/
def recvData (packet : DCCPPacket) (tellCc tellApp : Bool) (agent : DCCPAgent) : DCCPAgent × List Frame :=
  (agent, (if tellCc then [.recvPacketRecv, .sendPacketRecv] else []) ++ (if 0 < packet.dataSize then [.recvBytes] else []) ++
    (if tellApp then [.idle] else []) ++ [.freeSend])

/-- `recv` from its label `free_send`. -/
def freeSend (agent : DCCPAgent) : DCCPAgent × List Frame :=
  if agent.output then outputPacket params agent.outputFlag agent else (agent, [])

/-- The switch of `recv` over the state. -/
def recvState (packet : DCCPPacket) (agent : DCCPAgent) : Option (DCCPAgent × List Frame) :=
  let dataOrAck := packet.type = .data ∨ packet.type = .dataack ∨ packet.type = .ack
  let ackReceived := packet.type = .dataack ∨ packet.type = .ack
  match agent.state with
  | .closed => some (agent, [])
  | .listen =>
    if packet.type = .request then
      (changeState params .respond { agent with packetRecv := true }).map fun agent =>
        freeSend params { agent with output := true }
    else some (agent, [])
  | .respond =>
    if packet.type = .request then some (freeSend params { agent with output := true })
    else if packet.type = .close then some agent.sendResetReset
    else if ackReceived ∧ packet.ackNum = agent.seqNum - 1 then
      let tellApp := !agent.infiniteSend && agent.sb.isEmpty
      (changeState params .open { agent with connEst := true }).map
        (recvData packet (decide (0 < packet.dataSize)) tellApp)
    else some (agent, [])
  | .open =>
    if packet.type = .close then some agent.sendResetReset
    else if packet.type = .closereq then
      (agent.changeState params .closing).map fun agent => freeSend params { agent with output := true }
    else if dataOrAck then some (agent.recvData packet true false)
    else some (agent, [])
  | .request =>
    if packet.type = .response then
      (changeState params .open { agent with packetRecv := true }).map fun agent =>
        freeSend params { agent with sendAck := true, ackNum := agent.seqNumRecv, output := true }
    else if packet.type = .close then some agent.sendResetReset
    else some (agent, [])
  | .closereq =>
    if packet.type = .close then some agent.sendResetReset
    else if dataOrAck then some (agent.recvData packet false false)
    else some (agent, [])
  | .closing =>
    if packet.type = .closereq then
      (agent.changeState params .closing).map fun agent => freeSend params { agent with output := true }
    else if dataOrAck then some (agent.recvData packet false false)
    else some (agent, [])

def recv (packet : DCCPPacket) (agent : DCCPAgent) : Option (DCCPAgent × List Frame) :=
  let packet := packet.measured
  let checked := checkPacket packet { agent with output := false, outputFlag := false }
  let agent := checked.2
  if !checked.1 then some (agent, [])
  else if packet.type = .reset then (agent.reset params).map fun agent => (agent, [])
  else if packet.type = .closereq ∨ packet.type = .close then agent.recvState params packet
  else match packet.options with
  | .failed true => some agent.sendResetReset
  | .failed false => (agent.reset params).map fun agent => (agent, [])
  | .parsed confirm =>
    let agent := if confirm && agent.state = .open then { agent with sendAck := true, ackNum := agent.seqNumRecv } else agent
    agent.recvState params packet

end DCCPAgent

/-- What the script, the application, the network or a congestion control
can call. The last is `output`, which the timers of a congestion control call. -/
inductive Call
  | sendmsg (nbytes : ℤ) (eof : Bool)
  | advanceby (delta : ℤ)
  | close
  | listen
  | recv (packet : DCCPPacket)
  | output (tryPureAck : Bool)

def Call.perform (params : DCCPParams) : Call → DCCPAgent → Option (DCCPAgent × List Frame)
  | sendmsg nbytes eof, agent => agent.sendmsg params nbytes eof
  | advanceby delta, agent => agent.advanceby params delta
  | close, agent => agent.close params
  | listen, agent => agent.listen params
  | recv packet, agent => agent.recv params packet
  | output tryPureAck, agent => some (agent.outputPacket params tryPureAck)

/-- The call at the top returns, or the code at the top goes on to the next
call outside or to its end. -/
def Frame.resume (params : DCCPParams) (answer : Answer) : Frame → DCCPAgent → Option (DCCPAgent × List Frame)
  | askPermToSend tryPureAck dataSize, agent =>
    let agent := agent.answered answer
    if answer.perm then some (agent.outputPermitted tryPureAck dataSize)
    else if tryPureAck && 0 < dataSize && agent.sendAck then some (agent, [.askPermToSendAck tryPureAck])
    else some (agent, [])
  | askPermToSendAck tryPureAck, agent =>
    let agent := agent.answered answer
    if answer.perm then some (agent.outputPermitted tryPureAck 0) else some (agent, [])
  | packetSent, agent | recvPacketRecv, agent | sendPacketRecv, agent => some (agent.answered answer, [])
  | send, agent | idle, agent | recvBytes, agent => some (agent, [])
  | sent tryPureAck tellApp moreToSend, agent =>
    if tellApp then some (agent, [.idle, .closeOnEmpty])
    else if moreToSend then some (agent.outputPacket params tryPureAck)
    else some (agent, [])
  | closeOnEmpty, agent => if agent.closeOnEmpty then agent.close params else some (agent, [])
  | freeSend, agent => some (agent.freeSend params)
  | reset, agent => (agent.reset params).map fun agent => (agent, [])
  | handledRtx, agent => some ({ agent with timerRtx := agent.timerRtx.handled }, [])
  | handledSnd, agent => some ({ agent with timerSnd := agent.timerSnd.handled }, [])

/-- An agent and what is left of the functions being executed, the innermost
first. No event handler is being executed when nothing is left. -/
structure DCCPConfig where
  agent : DCCPAgent
  stack : List Frame
  deriving DecidableEq

namespace DCCPConfig

inductive Event
  | call (call : Call)
  | resume (answer : Answer)
  | rtxExpires
  | sndExpires

def push (stack : List Frame) (result : DCCPAgent × List Frame) : DCCPConfig := ⟨result.1, result.2 ++ stack⟩

variable (params : DCCPParams)

/-- A call comes from the scheduler when no handler is being executed, or
from a function outside of the agent that it is calling. The scheduler
runs the handler of a timer only where nothing else is being executed. -/
def step (config : DCCPConfig) : Event → Option DCCPConfig
  | .call call =>
    if ∀ frame ∈ config.stack.head?, frame.outside then (call.perform params config.agent).map (push config.stack) else none
  | .resume answer =>
    match config.stack with
    | [] => none
    | frame :: rest => (frame.resume params answer config.agent).map (push rest)
  | .rtxExpires =>
    if config.stack = [] ∧ config.agent.timerRtx.status = .pending then
      ({ config.agent with timerRtx := config.agent.timerRtx.handling }.timeoutRtx params).map (push [.handledRtx])
    else none
  | .sndExpires =>
    if config.stack = [] ∧ config.agent.timerSnd = .pending then
      ({ config.agent with timerSnd := .handling }.timeoutSnd params).map (push [.handledSnd])
    else none

def machine : Machine DCCPConfig Event Unit := ⟨fun config event => (config.step params event).map (·, ())⟩

def new (unset : DCCPRetransmitTimer) : DCCPConfig := ⟨.new unset, []⟩

end DCCPConfig

end Ns2
