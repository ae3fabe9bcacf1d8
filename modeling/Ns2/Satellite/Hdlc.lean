import Ns2.Library.Machine
import Mathlib.Algebra.Order.Group.Int
import Mathlib.Logic.Function.Basic

namespace Ns2

namespace HDLC

universe u

/-- `HDLC_MWS`. -/
def mws : ℤ := 65536

inductive SS
  | rr | rej | rnr | srej
  deriving DecidableEq

inductive Command
  | snrm | snrme | sarm | sarme | sabm | sabme | disc | ua | dm
  deriving DecidableEq

/-- A data packet under the number that `inSendBuffer` gives it. -/
structure Packet (α : Type u) where
  sendSeqno : ℤ
  data : α
  deriving DecidableEq

inductive Frame (α : Type u)
  | i (recvSeqno : ℤ) (packet : Packet α)
  | s (recvSeqno : ℤ) (stype : SS)
  | u (utype : Command)
  deriving DecidableEq

structure ARQstate (α : Type u) where
  tSeqno : ℤ
  seqno : ℤ
  maxseq : ℤ
  highestAck : ℤ
  recvSeqno : ℤ
  ntimeouts : ℤ
  disconnect : Bool
  sabmeReq : ℕ
  sentREJ : Bool
  save : Option (Packet α)
  seen : ℤ → Option (Packet α)
  nextpkt : ℤ
  maxseen : ℤ
  /-- Whether `rtx_timer_`, `reset_timer_` and `delay_timer_` are pending. -/
  rtxPending : Bool
  resetPending : Bool
  delayPending : Bool
  sendBuf : List (Packet α)

structure Config where
  wnd : ℤ
  queueSize : ℤ
  selRepeat : Bool
  delAck : Bool

/-- What the routines work on: a state, `maxTimeouts_`, the frames sent down, the packets
sent up and the packets that `inSendBuffer` accepted. -/
structure Work (α : Type u) where
  a : ARQstate α
  maxTimeouts : ℤ
  sent : List (Frame α) := []
  up : List (Packet α) := []
  accepted : List (Packet α) := []

/-- The state for one next hop, if there is one. -/
structure Connection (α : Type u) where
  state : Option (ARQstate α)
  maxTimeouts : ℤ

structure Output (α : Type u) where
  sent : List (Frame α) := []
  up : List (Packet α) := []
  accepted : List (Packet α) := []
  /-- Whether `reset` was executed. -/
  reset : Bool := false

section

variable {α : Type u}

/-- `newEntry` does not set `maxseen_`: that is `unset`. -/
def newEntry (unset : ℤ) : ARQstate α where
  tSeqno := 0
  seqno := 0
  maxseq := 0
  highestAck := -1
  recvSeqno := -1
  ntimeouts := 0
  disconnect := false
  sabmeReq := 0
  sentREJ := false
  save := none
  seen _ := none
  nextpkt := 0
  maxseen := unset
  rtxPending := false
  resetPending := false
  delayPending := false
  sendBuf := []

def getPkt (buffer : List (Packet α)) (seqno : ℤ) : Option (Packet α) := buffer.find? fun p => p.sendSeqno = seqno

/-- `sendBuf_.remove` of the packet that `getPkt` found. -/
def remove (buffer : List (Packet α)) (seqno : ℤ) : List (Packet α) := buffer.eraseP fun p => p.sendSeqno = seqno

/-- The index `seq & wndmask_`. -/
def slot (seq : ℤ) : ℤ := seq % mws

def Work.send (frame : Frame α) (w : Work α) : Work α := { w with sent := w.sent ++ [frame] }

variable (config : Config)

/-- The number that acknowledges. -/
def ARQstate.ackSeqno (a : ARQstate α) : ℤ := if config.selRepeat then a.nextpkt else a.recvSeqno

def inSendBuffer (data : α) (w : Work α) : Work α :=
  if (w.a.sendBuf.length : ℤ) ≥ config.queueSize then w
  else
    let p : Packet α := ⟨w.a.seqno, data⟩
    { w with a.seqno := w.a.seqno + 1, a.sendBuf := w.a.sendBuf ++ [p], accepted := w.accepted ++ [p] }

def output (p : Packet α) (seqno : ℤ) (w : Work α) : Work α :=
  let w := w.send (.i (w.a.ackSeqno config) p)
  let forceSetRtxTimer : Bool := w.a.highestAck = w.a.maxseq
  { w with
    a.delayPending := false
    a.save := none
    a.maxseq := if seqno > w.a.maxseq then seqno else w.a.maxseq
    a.rtxPending := if !w.a.rtxPending || forceSetRtxTimer then true else w.a.rtxPending }

def dataToSend (a : ARQstate α) : Option (Packet α) :=
  if a.tSeqno ≤ a.highestAck + config.wnd then getPkt a.sendBuf a.tSeqno else none

/-- The loop of `sendMuch`. -/
def sendFrom : ℕ → Work α → Work α
  | 0, w => w
  | fuel + 1, w =>
    match dataToSend config w.a with
    | none => w
    | some p =>
      let w := output config p w.a.tSeqno w
      sendFrom fuel { w with a.tSeqno := w.a.tSeqno + 1 }

/-- `none` where the assertion fails. -/
def sendMuch (w : Work α) : Option (Work α) :=
  if w.a.sabmeReq = 2 then some (sendFrom config (w.a.highestAck + config.wnd + 1 - w.a.tSeqno).toNat w) else none

def ack (w : Work α) : Work α :=
  match if w.a.tSeqno > 0 then dataToSend config w.a else none with
  | some p =>
    let w := output config p w.a.tSeqno w
    { w with a.tSeqno := w.a.tSeqno + 1 }
  | none => w.send (.s (w.a.ackSeqno config) .rr)

def delayTimeout (w : Work α) : Work α :=
  match w.a.save with
  | none => w
  | some _ => { ack config w with a.save := none }

/-- `none` where `remove` aborts, as it is not given a packet. -/
def handlePiggyAck (recvSeqno : ℤ) (w : Work α) : Option (Work α) :=
  let seqno := recvSeqno - 1
  if seqno > w.a.highestAck then
    match getPkt w.a.sendBuf seqno with
    | none => none
    | some _ =>
      some { w with
        a.sendBuf := remove w.a.sendBuf seqno
        a.highestAck := seqno
        a.rtxPending := w.a.tSeqno > seqno ∨ seqno < w.a.maxseq
        a.ntimeouts := 0 }
  else some { w with a.ntimeouts := 0 }

/-- The part of `handleRR` before `sendMuch`. -/
def receiveRR (recvSeqno : ℤ) (w : Work α) : Work α :=
  let seqno := recvSeqno - 1
  if seqno > w.a.highestAck then
    let found := (getPkt w.a.sendBuf seqno).isSome
    { w with
      a.sendBuf := if found then remove w.a.sendBuf seqno else w.a.sendBuf
      a.highestAck := if found then seqno else w.a.highestAck
      a.rtxPending := w.a.tSeqno - 1 > seqno ∨ seqno < w.a.maxseq
      a.ntimeouts := 0 }
  else { w with a.ntimeouts := 0 }

def handleRR (recvSeqno : ℤ) (w : Work α) : Option (Work α) :=
  if w.a.sabmeReq ≠ 2 then some w else sendMuch config (receiveRR recvSeqno w)

def handleREJ (recvSeqno : ℤ) (w : Work α) : Option (Work α) :=
  if w.a.sabmeReq ≠ 2 then some w else sendMuch config { w with a.tSeqno := recvSeqno }

/-- `none` where there is no packet to copy. -/
def handleSREJ (recvSeqno : ℤ) (w : Work α) : Option (Work α) :=
  if w.a.sabmeReq ≠ 2 then some w else (getPkt w.a.sendBuf recvSeqno).map fun p => output config p recvSeqno w

/-- `reset_timeout` makes `maxTimeouts_` at least one. -/
def setResetTimer (w : Work α) : Work α :=
  { w with a.resetPending := true, maxTimeouts := if w.maxTimeouts < 1 then 1 else w.maxTimeouts }

/-- The packet in order is acknowledged and sent up. `none` where the assertion fails. -/
def acceptInOrder (p : Packet α) (w : Work α) : Option (Work α) :=
  if config.delAck then
    if w.a.delayPending then some { w with up := w.up ++ [p] }
    else if w.a.save.isSome then none
    else some { w with a.save := some p, a.delayPending := true, up := w.up ++ [p] }
  else
    let w := ack config w
    some { w with up := w.up ++ [p] }

def goBackNMode (p : Packet α) (w : Work α) : Option (Work α) :=
  if p.sendSeqno = w.a.recvSeqno then acceptInOrder config p { w with a.sentREJ := false, a.recvSeqno := w.a.recvSeqno + 1 }
  else if p.sendSeqno > w.a.recvSeqno then
    if w.a.sentREJ then some w
    else some (setResetTimer (Work.send (.s w.a.recvSeqno .rej) { w with a.sentREJ := true }))
  else some (ack config w)

/-- The loop that sends up the packets in order. -/
def deliverFrom : ℕ → Work α → Work α
  | 0, w => w
  | fuel + 1, w =>
    match w.a.seen (slot w.a.nextpkt) with
    | none => w
    | some p =>
      deliverFrom fuel { w with
        a.seen := Function.update w.a.seen (slot w.a.nextpkt) none
        a.nextpkt := w.a.nextpkt + 1
        up := w.up ++ [p] }

/-- The SREJ frames for the numbers from `first` up to `seq`. -/
def rejections (first seq : ℤ) : List (Frame α) := (List.range (seq - first).toNat).map fun i : ℕ => .s (first + i) .srej

/-- A packet with the highest number so far. -/
def noteMaxseen (p : Packet α) (w : Work α) : Work α :=
  if p.sendSeqno > w.a.maxseen then
    { w with
      sent := w.sent ++ rejections (w.a.maxseen + 1) p.sendSeqno
      a.maxseen := p.sendSeqno
      a.seen := Function.update w.a.seen (slot p.sendSeqno) (some p) }
  else w

/-- Each turn of the loop empties one of the slots. -/
def selectiveRepeatMode (p : Packet α) (w : Work α) : Work α :=
  let justMarkedAsSeen := p.sendSeqno > w.a.maxseen
  let w := noteMaxseen p w
  if p.sendSeqno < w.a.nextpkt then ack config w
  else if p.sendSeqno ≤ w.a.maxseen then
    if (w.a.seen (slot p.sendSeqno)).isSome ∧ ¬justMarkedAsSeen then ack config w
    else ack config (deliverFrom mws.toNat { w with a.seen := Function.update w.a.seen (slot p.sendSeqno) (some p) })
  else w

/-- A valid acknowledgement is one above -1. -/
def readPiggyAck (rseq : ℤ) (w : Work α) : Option (Work α) := if rseq > -1 then handlePiggyAck rseq w else some w

/-- The recovery mode of the station. -/
def receive (p : Packet α) (w : Work α) : Option (Work α) :=
  if config.selRepeat then some (selectiveRepeatMode config p w) else goBackNMode config p w

def recvIframe (rseq : ℤ) (p : Packet α) (w : Work α) : Option (Work α) :=
  if w.a.sabmeReq = 1 then some w
  else do
    let w ← readPiggyAck rseq (if w.a.recvSeqno = -1 ∧ w.a.sabmeReq = 0 then { w with a.sabmeReq := 2 } else w)
    let w ← receive config p (if p.sendSeqno = 0 ∧ w.a.recvSeqno = -1 then { w with a.recvSeqno := 0 } else w)
    if rseq > -1 then sendMuch config w else some w

def recvSframe (recvSeqno : ℤ) (stype : SS) (w : Work α) : Option (Work α) :=
  match stype with
  | .rr => handleRR config recvSeqno w
  | .rej => handleREJ config recvSeqno w
  | .rnr => some w
  | .srej => handleSREJ config recvSeqno w

def Work.done (w : Work α) : Connection α × Output α := (⟨some w.a, w.maxTimeouts⟩, ⟨w.sent, w.up, w.accepted, false⟩)

/-- The packets that `reset` sends up from `seen_`. -/
def purged (a : ARQstate α) : List (Packet α) :=
  if config.selRepeat then (List.range mws.toNat).filterMap fun n : ℕ => a.seen n else []

def reset (w : Work α) : Connection α × Output α :=
  (⟨none, w.maxTimeouts⟩, ⟨w.sent, w.up ++ purged config w.a, w.accepted, true⟩)

/-- The request for a connection, with the first packet. -/
def connect (w : Work α) : Work α :=
  if w.a.sabmeReq = 0 ∧ w.a.tSeqno = 0 then Work.send (.u .sabme) { w with a.sabmeReq := 1, a.rtxPending := true } else w

def recvOutgoing (unset : ℤ) (data : α) (c : Connection α) : Option (Connection α × Output α) :=
  let w : Work α := { a := c.state.getD (newEntry unset), maxTimeouts := c.maxTimeouts }
  let w := inSendBuffer config data (connect w)
  if w.a.sabmeReq = 2 then (sendMuch config w).map Work.done else some w.done

def handleSABMErequest (unset : ℤ) (c : Connection α) : Connection α × Output α :=
  match c.state with
  | none => (⟨some (newEntry unset), c.maxTimeouts⟩, { sent := [.u .ua] })
  | some a =>
    let (c, out) := reset config { a := a, maxTimeouts := c.maxTimeouts }
    (⟨some (newEntry unset), c.maxTimeouts⟩, { out with sent := out.sent ++ [.u .ua] })

/-- `none` where there is no state to reset. -/
def handleDISC (c : Connection α) : Option (Connection α × Output α) :=
  c.state.map fun a =>
    let (c, out) := reset config { a := a, maxTimeouts := c.maxTimeouts }
    (c, { out with sent := out.sent ++ [.u .ua] })

def handleUA (w : Work α) : Option (Connection α × Output α) :=
  if w.a.tSeqno = 0 ∧ w.a.sabmeReq = 1 then
    (sendMuch config { w with a.sabmeReq := 2, a.rtxPending := false }).map Work.done
  else if w.a.disconnect then some (reset config w)
  else some w.done

/-- A frame for which there has to be a state. -/
def withState (c : Connection α) (handle : Work α → Option (Connection α × Output α)) : Option (Connection α × Output α) :=
  match c.state with
  | none => some (c, {})
  | some a => handle { a := a, maxTimeouts := c.maxTimeouts }

def recvIncoming (unset : ℤ) (error : Bool) (frame : Frame α) (c : Connection α) : Option (Connection α × Output α) :=
  if error then some (c, {})
  else
    match frame with
    | .i recvSeqno p => withState c fun w => (recvIframe config recvSeqno p w).map Work.done
    | .s recvSeqno stype => withState c fun w => (recvSframe config recvSeqno stype w).map Work.done
    | .u .sabme => some (handleSABMErequest config unset c)
    | .u .ua => withState c (handleUA config)
    | .u .disc => handleDISC config c
    | .u _ => none

/-- `none` where there is no packet 0 to answer for, and where the assertion of `sendMuch` fails.
The second test of `ntimeouts_` in the source cannot fail. -/
def timeout (w : Work α) : Option (Connection α × Output α) :=
  let w := { w with a.ntimeouts := w.a.ntimeouts + 1 }
  if w.a.ntimeouts > w.maxTimeouts then some (reset config w)
  else if w.a.sabmeReq ≠ 0 ∧ w.a.tSeqno = 0 then
    (getPkt w.a.sendBuf 0).map fun _ => Work.done (Work.send (.u .sabme) { w with a.rtxPending := true })
  else if w.a.highestAck = w.a.maxseq then
    some (Work.done { w with a.rtxPending := true, a.tSeqno := w.a.highestAck + 1 })
  else (sendMuch config { w with a.tSeqno := w.a.highestAck + 1 }).map Work.done

inductive Timer
  | rtx | reset | delay
  deriving DecidableEq

inductive Input (α : Type u)
  | outgoing (unset : ℤ) (data : α)
  | incoming (unset : ℤ) (error : Bool) (frame : Frame α)
  | expire (timer : Timer)

/-- A timer that is not pending does not expire. -/
def expire (timer : Timer) (w : Work α) : Option (Connection α × Output α) :=
  match timer with
  | .rtx => if w.a.rtxPending then timeout config { w with a.rtxPending := false } else none
  | .reset => if w.a.resetPending then some (reset config { w with a.resetPending := false }) else none
  | .delay => if w.a.delayPending then some (delayTimeout config { w with a.delayPending := false }).done else none

def Connection.step (c : Connection α) : Input α → Option (Connection α × Output α)
  | .outgoing unset data => recvOutgoing config unset data c
  | .incoming unset error frame => recvIncoming config unset error frame c
  | .expire timer => c.state.bind fun a => expire config timer { a := a, maxTimeouts := c.maxTimeouts }

/-- A station with its list of states, each for one next hop. -/
structure Station (α : Type u) where
  states : ℤ → Option (ARQstate α)
  maxTimeouts : ℤ

def Station.connection (station : Station α) (hop : ℤ) : Connection α := ⟨station.states hop, station.maxTimeouts⟩

/-- Each input comes from or goes to one next hop. -/
def machine : Machine (Station α) (ℤ × Input α) (ℤ × Output α) where
  step station input := (Connection.step config (station.connection input.1) input.2).map fun (c, out) =>
    (⟨Function.update station.states input.1 c.state, c.maxTimeouts⟩, input.1, out)

/-- No connection yet. -/
def Station.initial (maxTimeouts : ℤ) : Station α := ⟨fun _ => none, maxTimeouts⟩

end

end HDLC

end Ns2
