import Ns2.Library.Ledger
import Ns2.Satellite.HdlcRoutines

namespace Ns2

namespace HDLC

universe u

/-- The packets that a station has to dispose of: frames from the network and packets from above, and the copies in `save_`.
The frames and packets are named by their data. -/
inductive Piece (α : Type u)
  | frame (name : α)
  | copy (name : α)
  deriving DecidableEq

inductive Event (α : Type u)
  | receive (piece : Piece α)
  | copy (piece : Piece α)
  | sendUp (piece : Piece α)
  | drop (piece : Piece α)
  | free (piece : Piece α)
  deriving DecidableEq

section

variable {α : Type u}

def custody : Custody (Event α) (Piece α) where
  gains
    | .receive piece => {piece}
    | .copy piece => {piece}
    | _ => 0
  losses
    | .sendUp piece => {piece}
    | .drop piece => {piece}
    | .free piece => {piece}
    | _ => 0

def Packet.piece (p : Packet α) : Piece α := .frame p.data

variable (config : Config)

/-- `Packet::free` of `save_`, if there is one. -/
def freeSave (a : ARQstate α) : List (Event α) := a.save.toList.map fun p => .free (.copy p.data)

def inSendBufferEvents (data : α) (w : Work α) : List (Event α) :=
  if (w.a.sendBuf.length : ℤ) ≥ config.queueSize then [.drop (.frame data)] else []

def outputEvents (w : Work α) : List (Event α) := freeSave w.a

def sendFromEvents : ℕ → Work α → List (Event α)
  | 0, _ => []
  | fuel + 1, w =>
    match dataToSend config w.a with
    | none => []
    | some p =>
      let next := output config p w.a.tSeqno w
      outputEvents w ++ sendFromEvents fuel { next with a.tSeqno := next.a.tSeqno + 1 }

def sendMuchEvents (w : Work α) : List (Event α) := sendFromEvents config (w.a.highestAck + config.wnd + 1 - w.a.tSeqno).toNat w

def ackEvents (w : Work α) : List (Event α) :=
  match if w.a.tSeqno > 0 then dataToSend config w.a else none with
  | some _ => outputEvents w
  | none => []

/-- The saved packet is freed after `ack`, which may free it too. -/
def delayTimeoutEvents (w : Work α) : List (Event α) :=
  match w.a.save with
  | none => []
  | some pkt => ackEvents config w ++ [.free (.copy pkt.data)]

/-- The packet under this number leaves the buffer and is freed. -/
def removeEvents (buffer : List (Packet α)) (seqno : ℤ) : List (Event α) := (getPkt buffer seqno).toList.map fun p => .free p.piece

def handlePiggyAckEvents (recvSeqno : ℤ) (w : Work α) : List (Event α) :=
  let seqno := recvSeqno - 1
  if seqno > w.a.highestAck then removeEvents w.a.sendBuf seqno else []

def handleRREvents (p : Piece α) (recvSeqno : ℤ) (w : Work α) : List (Event α) :=
  if w.a.sabmeReq ≠ 2 then []
  else
    let seqno := recvSeqno - 1
    -- a duplicate is dropped here, and freed with the others
    (if seqno > w.a.highestAck then removeEvents w.a.sendBuf seqno else [.drop p]) ++ [.free p] ++
      sendMuchEvents config (receiveRR recvSeqno w)

def handleREJEvents (rejp : Piece α) (recvSeqno : ℤ) (w : Work α) : List (Event α) :=
  if w.a.sabmeReq ≠ 2 then [] else sendMuchEvents config { w with a.tSeqno := recvSeqno } ++ [.free rejp]

def handleSREJEvents (rejp : Piece α) (w : Work α) : List (Event α) :=
  if w.a.sabmeReq ≠ 2 then [] else outputEvents w ++ [.free rejp]

def acceptInOrderEvents (p : Packet α) (w : Work α) : List (Event α) :=
  if config.delAck then
    if w.a.delayPending then [.sendUp p.piece] else [.copy (.copy p.data), .sendUp p.piece]
  else ackEvents config w ++ [.sendUp p.piece]

def goBackNModeEvents (p : Packet α) (w : Work α) : List (Event α) :=
  if p.sendSeqno = w.a.recvSeqno then acceptInOrderEvents config p { w with a.sentREJ := false, a.recvSeqno := w.a.recvSeqno + 1 }
  else if p.sendSeqno > w.a.recvSeqno then [.drop p.piece]
  else ackEvents config w ++ [.drop p.piece]

def deliverFromEvents : ℕ → Work α → List (Event α)
  | 0, _ => []
  | fuel + 1, w =>
    match w.a.seen (slot w.a.nextpkt) with
    | none => []
    | some p =>
      .sendUp p.piece :: deliverFromEvents fuel { w with
        a.seen := Function.update w.a.seen (slot w.a.nextpkt) none
        a.nextpkt := w.a.nextpkt + 1
        up := w.up ++ [p] }

def selectiveRepeatModeEvents (p : Packet α) (w : Work α) : List (Event α) :=
  let justMarkedAsSeen := p.sendSeqno > w.a.maxseen
  let w := noteMaxseen p w
  if p.sendSeqno < w.a.nextpkt then ackEvents config w ++ [.drop p.piece]
  else if p.sendSeqno ≤ w.a.maxseen then
    if (w.a.seen (slot p.sendSeqno)).isSome ∧ ¬justMarkedAsSeen then ackEvents config w ++ [.drop p.piece]
    else
      let w : Work α := { w with a.seen := Function.update w.a.seen (slot p.sendSeqno) (some p) }
      deliverFromEvents mws.toNat w ++ ackEvents config (deliverFrom mws.toNat w)
  else []

def readPiggyAckEvents (rseq : ℤ) (w : Work α) : List (Event α) := if rseq > -1 then handlePiggyAckEvents rseq w else []

def receiveEvents (p : Packet α) (w : Work α) : List (Event α) :=
  if config.selRepeat then selectiveRepeatModeEvents config p w else goBackNModeEvents config p w

def recvIframeEvents (rseq : ℤ) (p : Packet α) (w : Work α) : List (Event α) :=
  if w.a.sabmeReq = 1 then []
  else
    let w := if w.a.recvSeqno = -1 ∧ w.a.sabmeReq = 0 then { w with a.sabmeReq := 2 } else w
    readPiggyAckEvents rseq w ++
      match readPiggyAck rseq w with
      | none => []
      | some w =>
        let w := if p.sendSeqno = 0 ∧ w.a.recvSeqno = -1 then { w with a.recvSeqno := 0 } else w
        receiveEvents config p w ++
          match receive config p w with
          | none => []
          | some w => if rseq > -1 then sendMuchEvents config w else []

/-- `handleRNR` does nothing with its frame. -/
def recvSframeEvents (p : Piece α) (recvSeqno : ℤ) (stype : SS) (w : Work α) : List (Event α) :=
  match stype with
  | .rr => handleRREvents config p recvSeqno w
  | .rej => handleREJEvents config p recvSeqno w
  | .rnr => []
  | .srej => handleSREJEvents p w

/-- The loop that purges the send buffer from the number `n` on. -/
def purgeFrom : ℕ → List (Packet α) → ℤ → List (Packet α)
  | 0, _, _ => []
  | fuel + 1, buffer, n =>
    match getPkt buffer n with
    | none => []
    | some p => p :: purgeFrom fuel (remove buffer n) (n + 1)

def resetEvents (a : ARQstate α) : List (Event α) :=
  ((purgeFrom a.sendBuf.length a.sendBuf (a.highestAck + 1)).map fun p => .free p.piece) ++
    ((purged config a).map fun p => .sendUp p.piece) ++ freeSave a

def recvOutgoingEvents (unset : ℤ) (data : α) (c : Connection α) : List (Event α) :=
  let w : Work α := { a := c.state.getD (newEntry unset), maxTimeouts := c.maxTimeouts }
  let w := connect w
  inSendBufferEvents config data w ++
    (let w := inSendBuffer config data w
     if w.a.sabmeReq = 2 then sendMuchEvents config w else [])

def handleSABMErequestEvents (p : Piece α) (c : Connection α) : List (Event α) := c.state.toList.flatMap (resetEvents config) ++ [.free p]

def handleDISCEvents (p : Piece α) (c : Connection α) : List (Event α) := c.state.toList.flatMap (resetEvents config) ++ [.free p]

def handleUAEvents (p : Piece α) (w : Work α) : List (Event α) :=
  (if w.a.tSeqno = 0 ∧ w.a.sabmeReq = 1 then sendMuchEvents config { w with a.sabmeReq := 2, a.rtxPending := false }
    else if w.a.disconnect then resetEvents config w.a
    else []) ++ [.free p]

/-- Without a state the frame is left as it is. -/
def withStateEvents (c : Connection α) (handle : Work α → List (Event α)) : List (Event α) :=
  match c.state with
  | none => []
  | some a => handle { a := a, maxTimeouts := c.maxTimeouts }

def recvIncomingEvents (p : Piece α) (error : Bool) (frame : Frame α) (c : Connection α) : List (Event α) :=
  if error then [.drop p]
  else
    match frame with
    | .i recvSeqno pkt => withStateEvents c (recvIframeEvents config recvSeqno pkt)
    | .s recvSeqno stype => withStateEvents c (recvSframeEvents config p recvSeqno stype)
    | .u .sabme => handleSABMErequestEvents config p c
    | .u .ua => withStateEvents c (handleUAEvents config p)
    | .u .disc => handleDISCEvents config p c
    | .u _ => []

def timeoutEvents (w : Work α) : List (Event α) :=
  let w := { w with a.ntimeouts := w.a.ntimeouts + 1 }
  if w.a.ntimeouts > w.maxTimeouts then resetEvents config w.a
  else if w.a.sabmeReq ≠ 0 ∧ w.a.tSeqno = 0 then []
  else if w.a.highestAck = w.a.maxseq then []
  else sendMuchEvents config { w with a.tSeqno := w.a.highestAck + 1 }

def expireEvents (timer : Timer) (w : Work α) : List (Event α) :=
  match timer with
  | .rtx => timeoutEvents config { w with a.rtxPending := false }
  | .reset => resetEvents config { w.a with resetPending := false }
  | .delay => delayTimeoutEvents config { w with a.delayPending := false }

/-- An I frame is named by its data, another by `name`. -/
def Frame.piece (name : α) : Frame α → Piece α
  | .i _ p => p.piece
  | _ => .frame name

def Connection.events (c : Connection α) (name : α) : Input α → List (Event α)
  | .outgoing unset data => .receive (.frame data) :: recvOutgoingEvents config unset data c
  | .incoming _ error frame => .receive (frame.piece name) :: recvIncomingEvents config (frame.piece name) error frame c
  | .expire timer => withStateEvents c (expireEvents config timer)

/-- The station with the log of what becomes of its packets, by the hop that they come from or go to. -/
def custodyMachine : Machine (Station α) (ℤ × α × Input α) (ℤ × List (Event α)) where
  step station input := (Connection.step config (station.connection input.1) input.2.2).map fun (c, _) =>
    (⟨Function.update station.states input.1 c.state, c.maxTimeouts⟩, input.1,
      (station.connection input.1).events config input.2.1 input.2.2)

/-- What a state keeps. -/
def ARQstate.held (a : ARQstate α) : Multiset (Piece α) :=
  (a.sendBuf.map Packet.piece : List (Piece α)) + (a.save.toList.map fun p => .copy p.data : List (Piece α)) +
    ((purged config a).map Packet.piece : List (Piece α))

def Connection.held (c : Connection α) : Multiset (Piece α) :=
  match c.state with
  | none => 0
  | some a => a.held config

/-- The send buffer holds the numbers that follow `highest_ack_`, each once. -/
def Purgeable (a : ARQstate α) : Prop :=
  (a.sendBuf.map Packet.sendSeqno).Perm ((List.range a.sendBuf.length).map fun i : ℕ => a.highestAck + 1 + i)

/-- The handler of the frame disposes of it once. -/
def DisposesOf (c : Connection α) : Frame α → Prop
  | .i _ p => ∃ a, c.state = some a ∧ a.sabmeReq ≠ 1 ∧
      (config.selRepeat = true → p.sendSeqno > a.maxseen → a.seen (slot p.sendSeqno) = none ∧ p.sendSeqno ≥ a.nextpkt)
  | .s recvSeqno .rr => ∃ a, c.state = some a ∧ a.sabmeReq = 2 ∧ recvSeqno - 1 > a.highestAck
  | .s _ .rnr => False
  | .s _ _ => ∃ a, c.state = some a ∧ a.sabmeReq = 2
  | .u .ua => ∃ a, c.state = some a ∧ (a.disconnect = true → ¬(a.tSeqno = 0 ∧ a.sabmeReq = 1) → Purgeable a)
  | .u _ => ∀ a, c.state = some a → Purgeable a

/-- The expiry disposes of what it disposes of once, and of all that is not kept. -/
def ExpiresClean (c : Connection α) : Timer → Prop
  | .rtx => ∀ a, c.state = some a → a.ntimeouts + 1 > c.maxTimeouts → Purgeable a
  | .reset => ∀ a, c.state = some a → Purgeable a
  | .delay => ∀ a, c.state = some a → a.save.isSome → ¬(a.tSeqno > 0 ∧ (dataToSend config a).isSome)

def Clean (c : Connection α) : Input α → Prop
  | .outgoing _ _ => True
  | .incoming _ error frame => error = true ∨ DisposesOf config c frame
  | .expire timer => ExpiresClean config c timer

end

end HDLC

end Ns2
