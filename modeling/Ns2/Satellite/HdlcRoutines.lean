import Ns2.Satellite.Hdlc

namespace Ns2

namespace HDLC

/-- What the routines that send and the timers change of a state. -/
structure Progress (α : Type*) where
  tSeqno : ℤ
  maxseq : ℤ
  ntimeouts : ℤ
  sabmeReq : ℕ
  rtxPending : Bool
  delayPending : Bool
  save : Option (Packet α)

def ARQstate.progress (a : ARQstate α) : Progress α :=
  ⟨a.tSeqno, a.maxseq, a.ntimeouts, a.sabmeReq, a.rtxPending, a.delayPending, a.save⟩

def Work.advance (g : Progress α) (more : List (Frame α)) (w : Work α) : Work α :=
  { w with
    a.tSeqno := g.tSeqno
    a.maxseq := g.maxseq
    a.ntimeouts := g.ntimeouts
    a.sabmeReq := g.sabmeReq
    a.rtxPending := g.rtxPending
    a.delayPending := g.delayPending
    a.save := g.save
    sent := w.sent ++ more }

/-- An acknowledgement, a buffered packet within the window that carries one, or a command. -/
inductive Carried (config : Config) (a : ARQstate α) : Frame α → Prop
  | rr : Carried config a (.s (a.ackSeqno config) .rr)
  | i (found : getPkt a.sendBuf n = some p) (window : n ≤ a.highestAck + config.wnd) : Carried config a (.i (a.ackSeqno config) p)
  | u (utype : Command) : Carried config a (.u utype)

/-- Some such frames are sent, and no more is done than that takes. -/
def Sends (config : Config) (w w' : Work α) : Prop :=
  ∃ g more, w' = w.advance g more ∧ ∀ frame ∈ more, Carried config w.a frame

section

variable {α : Type*}

/-- What an acknowledgement takes from the buffer. -/
def ARQstate.acknowledged (k : ℤ) (a : ARQstate α) : ARQstate α :=
  if a.highestAck < k - 1 ∧ (getPkt a.sendBuf (k - 1)).isSome then
    { a with sendBuf := remove a.sendBuf (k - 1), highestAck := k - 1 }
  else a

def Work.acknowledged (k : ℤ) (w : Work α) : Work α := { w with a := w.a.acknowledged k }

/-- A packet received in order. -/
def Work.received (p : Packet α) (w : Work α) : Work α :=
  { w with a.sentREJ := false, a.recvSeqno := w.a.recvSeqno + 1, up := w.up ++ [p] }

def Work.rejected (w : Work α) : Work α := setResetTimer (Work.send (.s w.a.recvSeqno .rej) { w with a.sentREJ := true })

/-- A packet put into its slot, with all that can be sent up then. -/
def Work.recorded (p : Packet α) (w : Work α) : Work α :=
  deliverFrom mws.toNat { w with a.seen := Function.update w.a.seen (slot p.sendSeqno) (some p) }

/-- The number that the receiver waits for before packet 0 has come. -/
def Work.opened (p : Packet α) (w : Work α) : Work α :=
  { w with a.recvSeqno := if p.sendSeqno = 0 ∧ w.a.recvSeqno = -1 then 0 else w.a.recvSeqno }

/-- The acknowledgement that a data packet carries, if it is a valid one. -/
def Work.piggyback (rseq : ℤ) (w : Work α) : Work α := if rseq > -1 then w.acknowledged rseq else w

/-- What a step without a reset can do. -/
inductive Turn (config : Config) (w : Work α) : Input α → Work α → Prop
  | sends {input : Input α} {w' : Work α} (sends : Sends config w w') : Turn config w input w'
  | outgoing {unset : ℤ} {data : α} {w₁ w' : Work α} (before : Sends config w w₁) (sends : Sends config (inSendBuffer config data w₁) w') :
      Turn config w (.outgoing unset data) w'
  | acknowledged {k unset : ℤ} {w' : Work α} (sends : Sends config (w.acknowledged k) w') : Turn config w (.incoming unset false (.s k .rr)) w'
  | resends {k unset : ℤ} {p : Packet α} (connected : w.a.sabmeReq = 2) (found : getPkt w.a.sendBuf k = some p) :
      Turn config w (.incoming unset false (.s k .srej)) (output config p k w)
  | receives {rseq unset : ℤ} {p : Packet α} {w₁ w₂ w' : Work α} (connected : w.a.sabmeReq ≠ 1)
      (before : Sends config (w.piggyback rseq) w₁) (received : receive config p (w₁.opened p) = some w₂) (sends : Sends config w₂ w') :
      Turn config w (.incoming unset false (.i rseq p)) w'

/-- The value that `maxseen_` of a new state has. -/
def Input.unset : Input α → ℤ
  | .outgoing unset _ | .incoming unset _ _ => unset
  | .expire _ => 0

/-- The state that the step works on. -/
def Connection.work (c : Connection α) (input : Input α) : Work α :=
  { a := c.state.getD (newEntry input.unset), maxTimeouts := c.maxTimeouts }

/-- What a step can do at all. -/
inductive Stepped (config : Config) (c : Connection α) (input : Input α) : Connection α × Output α → Prop
  | reset (state : next.1.state = none ∨ next.1.state = some (newEntry input.unset)) (out : next.2.reset = true)
      (accepted : next.2.accepted = []) : Stepped config c input next
  | idle : Stepped config c input (c, {})
  | turn (turn : Turn config (c.work input) input w') : Stepped config c input w'.done

end

variable {α : Type*} {config : Config} {w w' w'' : Work α} {a : ARQstate α} {p q : Packet α} {n k : ℤ} {buffer : List (Packet α)}

theorem getPkt_eq_some (found : getPkt buffer n = some p) : p ∈ buffer ∧ p.sendSeqno = n :=
  ⟨List.mem_of_find?_eq_some found, of_decide_eq_true (List.find?_some found :)⟩

theorem getPkt_isSome : (getPkt buffer n).isSome ↔ ∃ p ∈ buffer, p.sendSeqno = n := by
  simp [getPkt]

theorem Sends.refl (w : Work α) : Sends config w w :=
  ⟨w.a.progress, [], by simp [Work.advance, ARQstate.progress], by simp⟩

/-- A change of nothing but what `Progress` names. -/
theorem Sends.of_progress (g : Progress α) (w : Work α) : Sends config w (w.advance g []) := ⟨g, [], rfl, by simp⟩

theorem Sends.trans (first : Sends config w w') (second : Sends config w' w'') : Sends config w w'' := by
  obtain ⟨g, more, rfl, carried⟩ := first
  obtain ⟨g', more', rfl, carried'⟩ := second
  refine ⟨g', more ++ more', by simp [Work.advance], fun frame mem => ?_⟩
  rcases List.mem_append.mp mem with early | late
  · exact carried frame early
  · cases carried' frame late with
    | rr => exact .rr
    | i found window => exact .i found window
    | u utype => exact .u utype

/-- What `output` does, with or without the counting up of `t_seqno_`. -/
theorem output_advance (config : Config) (p : Packet α) (seqno t : ℤ) (w : Work α) : ∃ g,
    { output config p seqno w with a.tSeqno := t } = w.advance g [.i (w.a.ackSeqno config) p] ∧ g.tSeqno = t :=
  ⟨⟨t, _, _, _, _, _, _⟩, rfl, rfl⟩

theorem output_sends (found : getPkt w.a.sendBuf n = some p) (window : n ≤ w.a.highestAck + config.wnd) (t : ℤ) :
    Sends config w { output config p n w with a.tSeqno := t } := by
  obtain ⟨g, same, _⟩ := output_advance config p n t w
  exact ⟨g, _, same, fun _ mem => List.mem_singleton.mp mem ▸ .i found window⟩

theorem dataToSend_eq_some (found : dataToSend config a = some p) :
    a.tSeqno ≤ a.highestAck + config.wnd ∧ getPkt a.sendBuf a.tSeqno = some p := by
  unfold dataToSend at found
  split_ifs at found with window
  exact ⟨window, found⟩

theorem sendFrom_sends (fuel : ℕ) (w : Work α) : Sends config w (sendFrom config fuel w) := by
  induction fuel generalizing w with
  | zero => exact .refl w
  | succ fuel ih =>
    rw [sendFrom]
    split
    · exact .refl w
    · rename_i p found
      obtain ⟨window, found⟩ := dataToSend_eq_some found
      exact (output_sends found window _).trans (ih _)

theorem sendMuch_sends (done : sendMuch config w = some w') : Sends config w w' := by
  unfold sendMuch at done
  split_ifs at done
  cases done
  exact sendFrom_sends _ w

theorem ack_sends (config : Config) (w : Work α) : Sends config w (ack config w) := by
  unfold ack
  split
  · rename_i p found
    split_ifs at found
    obtain ⟨window, found⟩ := dataToSend_eq_some found
    exact output_sends found window _
  · exact ⟨w.a.progress, _, rfl, fun _ mem => List.mem_singleton.mp mem ▸ .rr⟩

theorem delayTimeout_sends (config : Config) (w : Work α) : Sends config w (delayTimeout config w) := by
  unfold delayTimeout
  split
  · exact .refl w
  · obtain ⟨g, more, same, carried⟩ := ack_sends config w
    exact ⟨{ g with save := none }, more, by rw [same]; rfl, carried⟩

theorem handlePiggyAck_sends (done : handlePiggyAck k w = some w') : Sends config (w.acknowledged k) w' := by
  unfold handlePiggyAck at done
  dsimp only at done
  unfold Work.acknowledged ARQstate.acknowledged
  split_ifs at done with new
  · split at done
    · cases done
    · rename_i p found
      cases done
      rw [if_pos ⟨new, by rw [found]; rfl⟩]
      exact ⟨{ w.a.progress with rtxPending := _, ntimeouts := 0 }, [], by simp only [Work.advance, List.append_nil]; rfl, by simp⟩
  · cases done
    rw [if_neg fun both => new both.1]
    exact ⟨{ w.a.progress with ntimeouts := 0 }, [], by simp only [Work.advance, List.append_nil]; rfl, by simp⟩

theorem receiveRR_sends (k : ℤ) (w : Work α) : Sends config (w.acknowledged k) (receiveRR k w) := by
  unfold receiveRR Work.acknowledged ARQstate.acknowledged
  by_cases new : w.a.highestAck < k - 1
  · by_cases found : (getPkt w.a.sendBuf (k - 1)).isSome <;> simp only [new, found, gt_iff_lt, and_self, and_false, if_true]
    · exact ⟨{ w.a.progress with rtxPending := _, ntimeouts := 0 }, [], by simp only [Work.advance, List.append_nil]; rfl, by simp⟩
    · exact ⟨{ w.a.progress with rtxPending := _, ntimeouts := 0 }, [], by simp only [Work.advance, List.append_nil]; rfl, by simp⟩
  · simp only [new, gt_iff_lt, false_and, if_false]
    exact ⟨{ w.a.progress with ntimeouts := 0 }, [], by simp only [Work.advance, List.append_nil]; rfl, by simp⟩

theorem handleRR_cases (done : handleRR config k w = some w') :
    w' = w ∨ Sends config (w.acknowledged k) w' := by
  unfold handleRR at done
  split_ifs at done
  · exact Or.inl (Option.some.inj done).symm
  · exact Or.inr ((receiveRR_sends k w).trans (sendMuch_sends done))

theorem handleREJ_sends (done : handleREJ config k w = some w') : Sends config w w' := by
  unfold handleREJ at done
  split_ifs at done
  · exact Option.some.inj done ▸ .refl w
  · have set : Sends config w { w with a.tSeqno := k } :=
      ⟨{ w.a.progress with tSeqno := k }, [], by simp only [Work.advance, List.append_nil]; rfl, by simp⟩
    exact set.trans (sendMuch_sends done)

theorem acceptInOrder_sends (done : acceptInOrder config p w = some w') : Sends config { w with up := w.up ++ [p] } w' := by
  unfold acceptInOrder at done
  split_ifs at done
  · cases done
    exact .refl _
  · cases done
    exact ⟨{ w.a.progress with save := some p, delayPending := true }, [],
      by simp only [Work.advance, List.append_nil]; rfl, by simp⟩
  · cases done
    obtain ⟨g, more, same, carried⟩ := ack_sends config w
    exact ⟨g, more, by rw [same]; rfl, fun frame mem => by cases carried frame mem <;> constructor <;> assumption⟩

theorem goBackNMode_cases (done : goBackNMode config p w = some w') :
    p.sendSeqno = w.a.recvSeqno ∧ Sends config (w.received p) w' ∨
      w.a.recvSeqno < p.sendSeqno ∧ w.a.sentREJ = false ∧ w' = w.rejected ∨ p.sendSeqno ≠ w.a.recvSeqno ∧ Sends config w w' := by
  unfold goBackNMode at done
  split_ifs at done with inOrder later sent
  · exact Or.inl ⟨inOrder, acceptInOrder_sends done⟩
  · exact Or.inr (Or.inr ⟨inOrder, Option.some.inj done ▸ .refl w⟩)
  · exact Or.inr (Or.inl ⟨later, Bool.eq_false_iff.mpr sent, (Option.some.inj done).symm⟩)
  · exact Or.inr (Or.inr ⟨inOrder, Option.some.inj done ▸ ack_sends config w⟩)

theorem selectiveRepeatMode_cases (config : Config) (p : Packet α) (w : Work α) :
    Sends config (noteMaxseen p w) (selectiveRepeatMode config p w) ∨
      (noteMaxseen p w).a.nextpkt ≤ p.sendSeqno ∧
        (w.a.maxseen < p.sendSeqno ∨ (noteMaxseen p w).a.seen (slot p.sendSeqno) = none) ∧
        Sends config ((noteMaxseen p w).recorded p) (selectiveRepeatMode config p w) := by
  unfold selectiveRepeatMode
  dsimp only
  split_ifs with old inside again
  · exact Or.inl (ack_sends ..)
  · exact Or.inl (ack_sends ..)
  · refine Or.inr ⟨not_lt.mp old, ?_, ack_sends ..⟩
    by_cases new : w.a.maxseen < p.sendSeqno
    · exact Or.inl new
    · exact Or.inr (Option.not_isSome_iff_eq_none.mp fun known => again ⟨known, new⟩)
  · exact Or.inl (.refl _)

theorem acknowledged_advance (g : Progress α) (more : List (Frame α)) (k : ℤ) (w : Work α) :
    (w.advance g more).acknowledged k = (w.acknowledged k).advance g more := by
  unfold Work.acknowledged ARQstate.acknowledged
  by_cases new : w.a.highestAck < k - 1 ∧ (getPkt w.a.sendBuf (k - 1)).isSome
  · rw [if_pos new, if_pos]
    · rfl
    · exact new
  · rw [if_neg new, if_neg]
    exact new

theorem piggyback_advance (g : Progress α) (more : List (Frame α)) (rseq : ℤ) (w : Work α) :
    (w.advance g more).piggyback rseq = (w.piggyback rseq).advance g more := by
  unfold Work.piggyback
  split_ifs
  · exact acknowledged_advance g more rseq w
  · rfl

theorem readPiggyAck_sends {rseq : ℤ} (done : readPiggyAck rseq w = some w') : Sends config (w.piggyback rseq) w' := by
  unfold readPiggyAck at done
  unfold Work.piggyback
  split_ifs at done ⊢
  · exact handlePiggyAck_sends done
  · exact Option.some.inj done ▸ .refl _

theorem recvIframe_cases {rseq : ℤ} (done : recvIframe config rseq p w = some w') :
    w' = w ∨ w.a.sabmeReq ≠ 1 ∧ ∃ w₁ w₂, Sends config (w.piggyback rseq) w₁ ∧ receive config p (w₁.opened p) = some w₂ ∧
      Sends config w₂ w' := by
  by_cases waiting : w.a.sabmeReq = 1
  · rw [recvIframe, if_pos waiting] at done
    exact Or.inl (Option.some.inj done).symm
  rw [recvIframe, if_neg waiting] at done
  obtain ⟨w₁, piggyback, done⟩ := Option.bind_eq_some_iff.mp done
  obtain ⟨w₂, mode, done⟩ := Option.bind_eq_some_iff.mp done
  refine Or.inr ⟨waiting, w₁, w₂, ?_, ?_, ?_⟩
  · have connected : (if w.a.recvSeqno = -1 ∧ w.a.sabmeReq = 0 then { w with a.sabmeReq := 2 } else w) =
        w.advance { w.a.progress with sabmeReq := if w.a.recvSeqno = -1 ∧ w.a.sabmeReq = 0 then 2 else w.a.sabmeReq } [] := by
      unfold Work.advance
      split_ifs <;> simp only [List.append_nil] <;> rfl
    rw [connected] at piggyback
    have acked := (readPiggyAck_sends piggyback : Sends config _ _)
    rw [piggyback_advance] at acked
    exact (Sends.of_progress _ _).trans acked
  · have opened : (if p.sendSeqno = 0 ∧ w₁.a.recvSeqno = -1 then { w₁ with a.recvSeqno := 0 } else w₁) = w₁.opened p := by
      unfold Work.opened
      split_ifs <;> rfl
    rwa [opened] at mode
  · split_ifs at done
    · exact sendMuch_sends done
    · exact Option.some.inj done ▸ .refl _

variable {c c' : Connection α} {input : Input α} {out : Output α} {next : Connection α × Output α}

theorem sends_command (g : Progress α) (utype : Command) (w : Work α) : Sends config w (w.advance g [.u utype]) :=
  ⟨g, _, rfl, fun _ mem => List.mem_singleton.mp mem ▸ .u utype⟩

theorem connect_sends (config : Config) (w : Work α) : Sends config w (connect w) := by
  unfold connect
  split_ifs
  · exact sends_command { w.a.progress with sabmeReq := 1, rtxPending := true } .sabme w
  · exact .refl w

theorem recvOutgoing_stepped {unset : ℤ} {data : α} (taken : recvOutgoing config unset data c = some next) :
    Stepped config c (.outgoing unset data) next := by
  unfold recvOutgoing at taken
  dsimp only at taken
  split_ifs at taken
  · obtain ⟨w', done, rfl⟩ := Option.map_eq_some_iff.mp taken
    exact .turn (.outgoing (connect_sends ..) (sendMuch_sends done))
  · cases taken
    exact .turn (.outgoing (connect_sends ..) (.refl _))

theorem Connection.work_eq (known : c.state = some a) (input : Input α) : c.work input = ⟨a, c.maxTimeouts, [], [], []⟩ := by
  rw [Connection.work, known]
  rfl

theorem handleUA_stepped {unset : ℤ} (taken : handleUA config (c.work (.incoming unset false (.u .ua))) = some next) :
    Stepped config c (.incoming unset false (.u .ua)) next := by
  unfold handleUA at taken
  split_ifs at taken
  · obtain ⟨w', done, rfl⟩ := Option.map_eq_some_iff.mp taken
    have set : Sends config (c.work (.incoming unset false (.u .ua))) _ := Sends.of_progress
      { (c.work (.incoming unset false (.u .ua))).a.progress with sabmeReq := 2, rtxPending := false } _
    refine .turn (.sends (set.trans ?_))
    simp only [Work.advance, List.append_nil]
    exact sendMuch_sends done
  · cases taken
    exact .reset (Or.inl rfl) rfl rfl
  · cases taken
    exact .turn (.sends (.refl _))

theorem recvSframe_stepped {unset k : ℤ} {stype : SS} (done : recvSframe config k stype (c.work (.incoming unset false (.s k stype))) = some w') :
    Stepped config c (.incoming unset false (.s k stype)) w'.done := by
  cases stype with
  | rr =>
    rcases handleRR_cases done with rfl | sends
    · exact .turn (.sends (.refl _))
    · exact .turn (.acknowledged sends)
  | rej => exact .turn (.sends (handleREJ_sends done))
  | rnr => exact .turn (.sends (Option.some.inj done ▸ .refl _))
  | srej =>
    rw [recvSframe, handleSREJ] at done
    split_ifs at done with other
    · exact .turn (.sends (Option.some.inj done ▸ .refl _))
    · obtain ⟨p, found, rfl⟩ := Option.map_eq_some_iff.mp done
      exact .turn (.resends (not_not.mp other) found)

theorem handleSABMErequest_stepped (config : Config) (unset : ℤ) (c : Connection α) :
    Stepped config c (.incoming unset false (.u .sabme)) (handleSABMErequest config unset c) := by
  unfold handleSABMErequest
  cases known : c.state with
  | some a => exact .reset (Or.inr rfl) rfl rfl
  | none =>
    have work : c.work (.incoming unset false (.u .sabme)) = ⟨newEntry unset, c.maxTimeouts, [], [], []⟩ := by
      rw [Connection.work, known]
      rfl
    have stepped : Stepped config c (.incoming unset false (.u .sabme)) (Work.done _) :=
      .turn (.sends (sends_command (newEntry unset : ARQstate α).progress .ua _))
    rw [work] at stepped
    exact stepped

theorem withState_stepped {handle : Work α → Option (Connection α × Output α)}
    (handled : handle (c.work input) = some next → Stepped config c input next) (taken : withState c handle = some next) :
    Stepped config c input next := by
  unfold withState at taken
  cases known : c.state with
  | none =>
    rw [known] at taken
    cases taken
    exact .idle
  | some a =>
    rw [known] at taken
    rw [Connection.work_eq known] at handled
    exact handled taken

theorem recvIncoming_stepped {unset : ℤ} {error : Bool} {frame : Frame α} (taken : recvIncoming config unset error frame c = some next) :
    Stepped config c (.incoming unset error frame) next := by
  unfold recvIncoming at taken
  cases error with
  | true =>
    cases taken
    exact .idle
  | false =>
    rw [if_neg Bool.false_ne_true] at taken
    cases frame with
    | i rseq p =>
      refine withState_stepped (fun handled => ?_) taken
      obtain ⟨w', done, rfl⟩ := Option.map_eq_some_iff.mp handled
      rcases recvIframe_cases done with rfl | ⟨connected, w₁, w₂, before, received, sends⟩
      · exact .turn (.sends (.refl _))
      · exact .turn (.receives connected before received sends)
    | s k stype =>
      refine withState_stepped (fun handled => ?_) taken
      obtain ⟨w', done, rfl⟩ := Option.map_eq_some_iff.mp handled
      exact recvSframe_stepped done
    | u utype =>
      cases utype with
      | sabme => exact Option.some.inj taken ▸ handleSABMErequest_stepped config unset c
      | ua => exact withState_stepped (fun handled => handleUA_stepped handled) taken
      | disc =>
        obtain ⟨a, known, rfl⟩ := Option.map_eq_some_iff.mp taken
        exact .reset (Or.inl rfl) rfl rfl
      | _ => cases taken

theorem timeout_stepped {timer : Timer} (sends : Sends config (c.work (.expire timer)) w) (taken : timeout config w = some next) :
    Stepped config c (.expire timer) next := by
  have unaccepted : w.accepted = [] := by
    obtain ⟨g, more, rfl, _⟩ := sends
    rfl
  unfold timeout at taken
  dsimp only at taken
  have counted : Sends config w (w.advance { w.a.progress with ntimeouts := w.a.ntimeouts + 1 } []) := .of_progress _ w
  split_ifs at taken
  · cases taken
    exact .reset (Or.inl rfl) rfl unaccepted
  · obtain ⟨p, _, rfl⟩ := Option.map_eq_some_iff.mp taken
    exact .turn (.sends (sends.trans
      (sends_command { w.a.progress with ntimeouts := w.a.ntimeouts + 1, rtxPending := true } .sabme w)))
  · cases taken
    have quiet : Sends config w _ :=
      .of_progress { w.a.progress with ntimeouts := w.a.ntimeouts + 1, rtxPending := true, tSeqno := w.a.highestAck + 1 } _
    simp only [Work.advance, List.append_nil] at quiet
    exact .turn (.sends (sends.trans quiet))
  · obtain ⟨w', done, rfl⟩ := Option.map_eq_some_iff.mp taken
    have quiet : Sends config w _ := .of_progress { w.a.progress with ntimeouts := w.a.ntimeouts + 1, tSeqno := w.a.highestAck + 1 } _
    simp only [Work.advance, List.append_nil] at quiet
    exact .turn (.sends (sends.trans (quiet.trans (sendMuch_sends done))))

/-- Every step is one of these. -/
theorem step_stepped (taken : c.step config input = some next) : Stepped config c input next := by
  cases input with
  | outgoing unset data => exact recvOutgoing_stepped taken
  | incoming unset error frame => exact recvIncoming_stepped taken
  | expire timer =>
    obtain ⟨a, known, taken⟩ := Option.bind_eq_some_iff.mp taken
    rw [← Connection.work_eq known (.expire timer)] at taken
    cases timer <;> simp only [expire, Option.ite_none_right_eq_some] at taken
    · have quiet : Sends config (c.work (.expire .rtx)) _ :=
        .of_progress { (c.work (.expire .rtx)).a.progress with rtxPending := false } _
      simp only [Work.advance, List.append_nil] at quiet
      exact timeout_stepped quiet taken.2
    · cases taken.2
      exact .reset (Or.inl rfl) rfl rfl
    · cases taken.2
      have quiet : Sends config (c.work (.expire .delay)) _ :=
        .of_progress { (c.work (.expire .delay)).a.progress with delayPending := false } _
      simp only [Work.advance, List.append_nil] at quiet
      exact .turn (.sends (quiet.trans (delayTimeout_sends ..)))

end HDLC

end Ns2
