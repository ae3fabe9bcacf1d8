import Ns2.Satellite.HdlcReceiver

universe u

namespace Ns2

namespace HDLC


/-- Two stations, the frames of each that are under way to the other, the oldest first, and the packets that
each accepted and passed up so far. -/
structure Link (α : Type u) where
  side : Bool → Connection α
  transit : Bool → List (Frame α)
  accepted : Bool → List (Packet α)
  passed : Bool → List (Packet α)

inductive LinkInput (α : Type u)
  | outgoing (b : Bool) (unset : ℤ) (data : α)
  /-- The oldest frame of the side gets to the other side. -/
  | deliver (b : Bool) (unset : ℤ)
  | lose (b : Bool) (i : ℕ)
  | expire (b : Bool) (timer : Timer)

section

variable {α : Type u}

/-- The side that acts, and the input that it gets. -/
def Link.acts (link : Link α) : LinkInput α → Option (Bool × Input α)
  | .outgoing b unset data => some (b, .outgoing unset data)
  | .deliver b unset => (link.transit b).head?.map fun frame => (!b, .incoming unset false frame)
  | .lose _ _ => none
  | .expire b timer => some (b, .expire timer)

/-- The frame that is delivered or lost is no longer under way. -/
def Link.taken (link : Link α) : LinkInput α → Link α
  | .deliver b _ => { link with transit := Function.update link.transit b (link.transit b).tail }
  | .lose b i => { link with transit := Function.update link.transit b ((link.transit b).eraseIdx i) }
  | _ => link

def Link.turn (link : Link α) (b : Bool) (next : Connection α × Output α) : Link α where
  side := Function.update link.side b next.1
  transit := Function.update link.transit b (link.transit b ++ next.2.sent)
  accepted := Function.update link.accepted b (link.accepted b ++ next.2.accepted)
  passed := Function.update link.passed b (link.passed b ++ next.2.up)

/-- The answer tells whether `reset` was executed. -/
def linkMachine (config : Bool → Config) : Machine (Link α) (LinkInput α) Bool where
  step link input :=
    match input with
    | .lose _ _ => some (link.taken input, false)
    | _ => (link.acts input).bind fun act => ((link.side act.1).step (config act.1) act.2).map fun next =>
        ((link.taken input).turn act.1 next, next.2.reset)

def Link.initial (maxTimeouts : Bool → ℤ) : Link α := ⟨fun b => ⟨none, maxTimeouts b⟩, fun _ => [], fun _ => [], fun _ => []⟩

/-- A station without a state counts as one with a new state. -/
def Connection.rest (c : Connection α) : Work α := { a := c.state.getD (newEntry 0), maxTimeouts := c.maxTimeouts }

/-- The packets from one station to the other. -/
structure Direction (cs cr : Config) (strict : Prop) (s r : Connection α) (there back : List (Frame α))
    (accepted passed : List (Packet α)) : Prop where
  sender : Sender cs there accepted s.rest
  receiver : Receiver cr strict accepted s.rest.a.highestAck cs.wnd back passed r.rest

/-- A Go-Back-N station gets packet 0 first, and a state for selective repeat is made with nothing seen. -/
def Connection.Prompt (config : Config) (c : Connection α) (input : Input α) : Prop :=
  FirstReady config (c.work input).a input ∧ (config.selRepeat = true → c.state = none → -1 ≤ input.unset)

end

variable {α : Type*} {cs cr : Config} {strict : Prop} {s r : Connection α} {there back rest : List (Frame α)}
  {accepted passed : List (Packet α)} {input : Input α} {next : Connection α × Output α} {config : Config} {h wnd : ℤ} {w w' : Work α}

theorem Sender.work (sender : Sender config there accepted s.rest) (input : Input α) : Sender config there accepted (s.work input) := by
  have same : (s.work input).a.seqno = s.rest.a.seqno ∧ (s.work input).a.highestAck = s.rest.a.highestAck ∧
      (s.work input).a.sendBuf = s.rest.a.sendBuf := by
    unfold Connection.work Connection.rest
    cases s.state <;> exact ⟨rfl, rfl, rfl⟩
  exact ⟨sender.sending.mono same.1 same.2.1 same.2.2, by rw [same.2.1]; exact sender.data⟩

theorem Receiver.work (receiver : Receiver config strict accepted h wnd back passed r.rest) (input : Input α)
    (prompt : strict → config.selRepeat = true → r.state = none → -1 ≤ input.unset) :
    Receiver config strict accepted h wnd back passed (r.work input) := by
  cases known : r.state with
  | some a =>
    have same : r.work input = r.rest := by
      unfold Connection.work Connection.rest
      rw [known]
      rfl
    rwa [same]
  | none =>
    have before : r.rest = ⟨newEntry 0, r.maxTimeouts, [], [], []⟩ := by
      rw [Connection.rest, known]
      rfl
    have after : r.work input = ⟨newEntry input.unset, r.maxTimeouts, [], [], []⟩ := by
      rw [Connection.work, known]
      rfl
    rw [before] at receiver
    rw [after]
    refine ⟨receiver.low, receiver.behind, receiver.acks, receiver.asks, receiver.order, fun _ _ _ stored => (by cases stored),
      fun repeats => ⟨?_, fun exact => prompt exact repeats known⟩, receiver.passed⟩
    change 0 ≤ max (input.unset + 1) 0
    omega

theorem frame_of_acks {k : ℤ} (acks : input.acks = some k) : ∃ unset frame, input = .incoming unset false frame ∧ frame.ackno = some k := by
  unfold Input.acks at acks
  split at acks
  · split_ifs at acks
    exact ⟨_, _, rfl, acks⟩
  · exact ⟨_, _, rfl, acks⟩
  · cases acks

/-- The sending station takes a step. -/
theorem Direction.sends (direction : Direction cs cr strict s r there back accepted passed) (stepped : Stepped cs s input next)
    (calm : next.2.reset = false) (sub : rest.Sublist back)
    (arrives : ∀ unset frame, input = .incoming unset false frame → back = frame :: rest) :
    Direction cs cr strict next.1 r (there ++ next.2.sent) rest (accepted ++ next.2.accepted) passed := by
  obtain ⟨sender, receiver⟩ := direction
  have known (frame : Frame α) (mem : frame ∈ back) : frame ∈ back ++ r.rest.sent := List.mem_append_left _ mem
  cases stepped with
  | reset _ out _ =>
    rw [out] at calm
    cases calm
  | idle =>
    simp only [List.append_nil]
    have kept : Receiver cr strict (accepted ++ []) s.rest.a.highestAck cs.wnd rest passed r.rest :=
      receiver.remote rfl sub le_rfl receiver.behind fun exact frame mem n asked => (receiver.asks frame (known frame (sub.mem mem)) n asked).2.2 exact
    rw [List.append_nil] at kept
    exact ⟨sender, kept⟩
  | @turn w' turn =>
    have start : (s.work input).a.highestAck = s.rest.a.highestAck := by
      unfold Connection.work Connection.rest
      cases s.state <;> rfl
    have sent := (sender.work input).turn (fun unset k same => by
      have window := (receiver.asks _ (known _ (arrives unset _ same ▸ List.mem_cons_self ..)) k rfl).2.1
      rwa [start]) turn
    refine ⟨sent.rest _, ?_⟩
    change Receiver cr strict (accepted ++ w'.accepted) w'.a.highestAck cs.wnd rest passed r.rest
    rcases turn.highestAck with same | ⟨k, acks, above, raised⟩
    · rw [same, start]
      exact receiver.remote rfl sub le_rfl receiver.behind fun exact frame mem n asked =>
        (receiver.asks frame (known frame (sub.mem mem)) n asked).2.2 exact
    · -- the acknowledgement was the oldest frame under way
      obtain ⟨unset, frame, same, acked⟩ := frame_of_acks acks
      have oldest := arrives unset frame same
      have bound := receiver.acks frame (known frame (oldest ▸ List.mem_cons_self ..)) k acked
      refine receiver.remote rfl sub (by omega) (by omega) fun exact later mem n asked => ?_
      have order := receiver.order exact
      rw [oldest, List.cons_append] at order
      have earlier := (List.pairwise_cons.mp order).1 later (List.mem_append_left _ mem) k n acked asked
      omega

/-- The receiving station takes a step. -/
theorem Direction.receives (direction : Direction cs cr strict s r there back accepted passed) (stepped : Stepped cr r input next)
    (calm : next.2.reset = false) (sub : rest.Sublist there)
    (arrives : ∀ unset frame, input = .incoming unset false frame → there = frame :: rest) (prompt : strict → r.Prompt cr input) :
    Direction cs cr strict s next.1 rest (back ++ next.2.sent) accepted (passed ++ next.2.up) := by
  obtain ⟨sender, receiver⟩ := direction
  have numbers : Numbered accepted := by simpa [Connection.rest] using sender.sending.numbers
  cases stepped with
  | reset _ out _ =>
    rw [out] at calm
    cases calm
  | idle =>
    simp only [List.append_nil]
    exact ⟨sender.sublist sub, receiver⟩
  | @turn w' turn =>
    have received := (receiver.work input fun exact => (prompt exact).2).turn numbers
      (fun unset frame same => by
        have windowed := sender.data frame (List.mem_append_left _ (arrives unset frame same ▸ List.mem_cons_self ..))
        simpa [Connection.rest] using windowed)
      (fun exact => (prompt exact).1) turn
    exact ⟨sender.sublist sub, received.rest _⟩

/-- Frames get lost. -/
theorem Direction.lose {there' back' : List (Frame α)} (direction : Direction cs cr strict s r there back accepted passed)
    (sub : there'.Sublist there) (sub' : back'.Sublist back) : Direction cs cr strict s r there' back' accepted passed := by
  have kept : Receiver cr strict (accepted ++ []) s.rest.a.highestAck cs.wnd back' passed r.rest :=
    direction.receiver.remote rfl sub' le_rfl direction.receiver.behind fun exact frame mem n asked =>
      (direction.receiver.asks frame (List.mem_append_left _ (sub'.mem mem)) n asked).2.2 exact
  rw [List.append_nil] at kept
  exact ⟨direction.sender.sublist sub, kept⟩

theorem direction_initial (cs cr : Config) (strict : Prop) (m m' : ℤ) :
    Direction cs cr strict (⟨none, m⟩ : Connection α) ⟨none, m'⟩ [] [] [] [] where
  sender := ⟨sending_newEntry 0, by simp [Connection.rest]⟩
  receiver :=
    { low := by unfold ARQstate.ackSeqno; split_ifs <;> simp_all [Connection.rest, newEntry]
      behind := by unfold ARQstate.ackSeqno; split_ifs <;> simp [Connection.rest, newEntry]
      acks := by simp [Connection.rest]
      asks := by simp [Connection.rest]
      order := by simp [Connection.rest]
      seen := fun _ _ _ stored => by cases stored
      edge := fun _ => ⟨by simp [Connection.rest, newEntry], fun _ => by simp [Connection.rest, newEntry]⟩
      passed := fun _ => by unfold ARQstate.ackSeqno; split_ifs <;> simp [Connection.rest, newEntry] }

section

variable {config : Bool → Config} {link link' : Link α} {b : Bool} {step : LinkInput α} {reset : Bool}

def Link.direction (config : Bool → Config) (strict : Prop) (link : Link α) (b : Bool) : Prop :=
  Direction (config b) (config !b) strict (link.side b) (link.side !b) (link.transit b) (link.transit !b) (link.accepted b) (link.passed !b)

/-- Packet 0 is the first one that a Go-Back-N station receives, and `maxseen_` starts below packet 0 at most. -/
def Link.Prompt (config : Bool → Config) (link : Link α) (step : LinkInput α) : Prop :=
  ∀ b input, link.acts step = some (b, input) → (link.side b).Prompt (config b) input

/-- The step does not execute `reset`. -/
def Link.Calm (config : Bool → Config) (link : Link α) (step : LinkInput α) : Prop :=
  ((linkMachine config).step link step).map Prod.snd ≠ some true

instance (config : Bool → Config) (link : Link α) (step : LinkInput α) : Decidable (Link.Calm config link step) :=
  inferInstanceAs (Decidable (_ ≠ _))

theorem update_sublist {f : Bool → List (Frame α)} {c : Bool} {l : List (Frame α)} (sub : l.Sublist (f c)) (b : Bool) :
    (Function.update f c l b).Sublist (f b) := by
  by_cases own : b = c
  · subst own
    rwa [Function.update_self]
  · rw [Function.update_of_ne own]

theorem Link.taken_sublist (link : Link α) (step : LinkInput α) (b : Bool) : ((link.taken step).transit b).Sublist (link.transit b) := by
  cases step with
  | outgoing _ _ _ | expire _ _ => exact .refl _
  | deliver c _ => exact update_sublist (List.tail_sublist _) b
  | lose c i => exact update_sublist (List.eraseIdx_sublist ..) b

theorem Link.taken_arrives {input : Input α} (acts : link.acts step = some (b, input)) (unset : ℤ) (frame : Frame α)
    (same : input = .incoming unset false frame) : link.transit (!b) = frame :: (link.taken step).transit (!b) := by
  subst same
  cases step with
  | outgoing _ _ _ | expire _ _ | lose _ _ => cases acts
  | deliver c _ =>
    obtain ⟨oldest, head, same⟩ := Option.map_eq_some_iff.mp acts
    cases same
    obtain ⟨rest, frames⟩ := List.head?_eq_some_iff.mp head
    simp only [Bool.not_not, Link.taken, Function.update_self, frames, List.tail_cons]

theorem Link.direction_step (directions : ∀ b, link.direction config strict b) (calm : link.Calm config step)
    (prompt : strict → link.Prompt config step) (taken : (linkMachine config).step link step = some (link', reset)) :
    ∀ b, link'.direction config strict b := by
  have quiet : reset = false := by
    rw [Link.Calm, taken] at calm
    exact Bool.eq_false_iff.mpr fun set => calm (congrArg some set)
  intro b
  by_cases lost : ∃ c i, step = .lose c i
  · obtain ⟨c, i, rfl⟩ := lost
    cases taken
    exact (directions b).lose (link.taken_sublist (.lose c i) b) (link.taken_sublist (.lose c i) !b)
  have acting : ((link.acts step).bind fun act => ((link.side act.1).step (config act.1) act.2).map fun next =>
      ((link.taken step).turn act.1 next, next.2.reset)) = some (link', reset) := by
    cases step with
    | lose c i => exact absurd ⟨c, i, rfl⟩ lost
    | _ => exact taken
  obtain ⟨⟨x, input⟩, acts, acting⟩ := Option.bind_eq_some_iff.mp acting
  obtain ⟨next, stepped, same⟩ := Option.map_eq_some_iff.mp acting
  cases same
  have stepped := step_stepped stepped
  have arrives := Link.taken_arrives acts
  have untouched : (link.taken step).side = link.side ∧ (link.taken step).accepted = link.accepted ∧
      (link.taken step).passed = link.passed := by cases step <;> exact ⟨rfl, rfl, rfl⟩
  obtain ⟨sides, accepted, passed⟩ := untouched
  have other : (!x) ≠ x := by cases x <;> decide
  by_cases own : b = x
  · subst own
    have sent := (directions b).sends stepped quiet (link.taken_sublist step !b) arrives
    unfold Link.direction Link.turn
    simp only [Function.update_self, Function.update_of_ne other, sides, accepted, passed]
    exact sent.lose ((link.taken_sublist step b).append_right _) (.refl _)
  · have across : b = !x := by cases b <;> cases x <;> first | rfl | exact absurd rfl own
    subst across
    have direction := directions !x
    unfold Link.direction at direction
    rw [Bool.not_not] at direction
    have received := direction.receives stepped quiet (link.taken_sublist step !x) arrives fun exact => prompt exact x input acts
    unfold Link.direction Link.turn
    simp only [Bool.not_not, Function.update_self, Function.update_of_ne other, sides, accepted, passed]
    exact received.lose (.refl _) ((link.taken_sublist step x).append_right _)

/-- What holds between two stations as long as there is no reset. -/
theorem run_direction (strict : Prop) {steps : List (LinkInput α)} {resets : List Bool} {maxTimeouts : Bool → ℤ}
    (run : (linkMachine config).run (Link.initial maxTimeouts) steps = some (link, resets))
    (calm : (linkMachine config).Along (Link.Calm config) (Link.initial maxTimeouts) steps)
    (prompt : strict → (linkMachine config).Along (Link.Prompt config) (Link.initial maxTimeouts) steps) (b : Bool) :
    link.direction config strict b := by
  have initial : ∀ b, (Link.initial maxTimeouts : Link α).direction config strict b := fun b => direction_initial ..
  have along : (linkMachine config).Along (fun link step => link.Calm config step ∧ (strict → link.Prompt config step))
      (Link.initial maxTimeouts) steps := by
    by_cases exact : strict
    · exact (calm.and (prompt exact)).mono fun _ _ both => ⟨both.1, fun _ => both.2⟩
    · exact calm.mono fun _ _ calm => ⟨calm, fun holds => absurd holds exact⟩
  exact Machine.run_kept (fun _ _ _ _ directions both taken => Link.direction_step directions both.1 both.2 taken) initial along run b

end

end HDLC

namespace HDLC

section

variable {α : Type*} {config : Config} {w : Work α} {p : Packet α} {n : ℤ}

/-- After a REJ for a packet of the window, that packet is the first one sent. -/
theorem handleREJ_resends (connected : w.a.sabmeReq = 2) (found : getPkt w.a.sendBuf n = some p)
    (window : n ≤ w.a.highestAck + config.wnd) :
    ∃ w' k more, handleREJ config n w = some w' ∧ w'.sent = w.sent ++ .i k p :: more := by
  obtain ⟨fuel, enough⟩ := Nat.exists_eq_succ_of_ne_zero (by omega : (w.a.highestAck + config.wnd + 1 - n).toNat ≠ 0)
  have data : dataToSend config { w.a with tSeqno := n } = some p := by rw [dataToSend, if_pos window, found]
  have much : sendMuch config { w with a.tSeqno := n } =
      some (sendFrom config fuel { output config p n { w with a.tSeqno := n } with a.tSeqno := n + 1 }) := by
    rw [sendMuch, if_pos connected, enough, sendFrom, data]
    rfl
  obtain ⟨g, more, same, _⟩ :
      Sends config _ (sendFrom config fuel { output config p n { w with a.tSeqno := n } with a.tSeqno := n + 1 }) := sendFrom_sends ..
  refine ⟨_, w.a.ackSeqno config, more, (if_neg (not_not.mpr connected)).trans much, ?_⟩
  rw [same]
  simp [Work.advance, output, Work.send, ARQstate.ackSeqno]

end

section

variable {α : Type*} {config : Bool → Config} {link : Link α} {steps : List (LinkInput α)} {resets : List Bool} {maxTimeouts : Bool → ℤ}

/-- Without a reset, every packet that is asked for again is in the buffer, and a REJ makes the station send it first. -/
theorem run_asks (run : (linkMachine config).run (Link.initial maxTimeouts) steps = some (link, resets))
    (calm : (linkMachine config).Along (Link.Calm config) (Link.initial maxTimeouts) steps)
    (prompt : (linkMachine config).Along (Link.Prompt config) (Link.initial maxTimeouts) steps)
    {b : Bool} {n : ℤ} {stype : SS} {rest : List (Frame α)} {a : ARQstate α} (oldest : link.transit b = .s n stype :: rest)
    (asks : stype = .rej ∨ stype = .srej) (known : (link.side !b).state = some a) (connected : a.sabmeReq = 2) :
    ∃ p, getPkt a.sendBuf n = some p ∧ ∀ w : Work α, w.a = a →
      ∃ w' k more, handleREJ (config !b) n w = some w' ∧ w'.sent = w.sent ++ .i k p :: more := by
  have direction := run_direction True run calm (fun _ => prompt) !b
  unfold Link.direction at direction
  rw [Bool.not_not] at direction
  have state : (link.side !b).rest.a = a := by rw [Connection.rest, known]; rfl
  have number : (Frame.s n stype : Frame α).asks = some n := by rcases asks with rfl | rfl <;> rfl
  obtain ⟨inside, window, above⟩ := direction.receiver.asks (.s n stype)
    (List.mem_append_left _ (oldest ▸ List.mem_cons_self ..)) n number
  have sending := direction.sender.sending
  rw [state] at sending above window
  have accepted : (link.accepted !b) ++ (link.side !b).rest.accepted = link.accepted !b := List.append_nil _
  rw [accepted] at sending
  have low := sending.low
  have higher := above trivial
  obtain ⟨p, found⟩ := Option.isSome_iff_exists.mp (sending.getPkt higher (by omega) (by rw [sending.seqno]; exact inside))
  refine ⟨p, found, fun w same => ?_⟩
  subst same
  exact handleREJ_resends connected found window

/-- Each station passes up the packets that the other one accepted, in order, and only those are taken from the
buffer of the other one that were passed up. -/
theorem run_delivers (run : (linkMachine config).run (Link.initial maxTimeouts) steps = some (link, resets))
    (calm : (linkMachine config).Along (Link.Calm config) (Link.initial maxTimeouts) steps)
    (window : ∀ b, 1 ≤ (config b).wnd ∧ (config b).wnd ≤ mws) (b : Bool) :
    link.passed (!b) <+: link.accepted b ∧
      ∀ p ∈ link.accepted b, (∀ a, (link.side b).state = some a → p ∉ a.sendBuf) → p ∈ link.passed !b := by
  have direction := run_direction False run calm (fun false => false.elim) b
  have accepted : (link.accepted b) ++ (link.side b).rest.accepted = link.accepted b := List.append_nil _
  have sending := direction.sender.sending
  rw [accepted] at sending
  obtain ⟨inside, passed⟩ := direction.receiver.passed (window b).2
  have up : (link.passed !b) ++ (link.side !b).rest.up = link.passed !b := List.append_nil _
  rw [up] at passed
  refine ⟨passed ▸ List.take_prefix .., fun p mem removed => ?_⟩
  have acked : p.sendSeqno ≤ (link.side b).rest.a.highestAck := by
    by_contra above
    have kept := sending.kept p mem (not_le.mp above)
    unfold Connection.rest at kept
    cases known : (link.side b).state with
    | some a =>
      rw [known] at kept
      exact removed a known kept
    | none =>
      rw [known] at kept
      cases kept
  have behind := direction.receiver.behind
  obtain ⟨small, _⟩ := sending.numbers.number mem
  have place := sending.numbers.getElem?.mpr ⟨mem, (Int.toNat_of_nonneg small).symm⟩
  rw [passed]
  exact List.mem_of_getElem? ((List.getElem?_take_of_lt (by omega)).trans place)

end

/-- Two stations in Go-Back-N mode. -/
def stations : Bool → Config := fun _ => goBackN

/-- Packet 1 and the acknowledgement of packet 0 get lost. -/
def packetLost : List (LinkInput ℕ) :=
  [.outgoing false 0 10, .outgoing false 0 11, .outgoing false 0 12, .deliver false 0, .deliver true 0, .deliver false 0, .lose false 0,
    .deliver false 0, .lose true 0]

/-- Packet 0 gets lost. -/
def firstLost : List (LinkInput ℕ) :=
  [.outgoing false 0 10, .outgoing false 0 11, .deliver false 0, .deliver true 0, .lose false 0, .deliver false 0]

theorem packetLost_calm : (linkMachine stations).Along (Link.Calm stations) (Link.initial fun _ => 2) packetLost := by decide

theorem packetLost_prompt : (linkMachine stations).Along (Link.Prompt stations) (Link.initial fun _ => 2) packetLost := by
  refine ⟨?_, ?_, ?_, ?_, ?_, ?_, ?_, ?_, ?_, trivial⟩ <;> rintro b input ⟨⟩ <;>
    refine ⟨fun _ unset k p same => ?_, fun repeats => by cases repeats⟩ <;> cases same
  · exact fun _ _ => rfl
  · rintro _ ⟨⟩

theorem run_asks_sample : ∃ link resets a, (linkMachine stations).run (Link.initial fun _ => 2) packetLost = some (link, resets) ∧
    link.transit true = [.s 1 .rej] ∧ (link.side false).state = some a ∧ a.sabmeReq = 2 ∧
    ∃ p, getPkt a.sendBuf 1 = some p ∧ ∀ w : Work ℕ, w.a = a →
      ∃ w' k more, handleREJ goBackN 1 w = some w' ∧ w'.sent = w.sent ++ .i k p :: more :=
  ⟨_, _, _, rfl, rfl, rfl, rfl, run_asks rfl packetLost_calm packetLost_prompt (b := true) rfl (Or.inl rfl) rfl rfl⟩

/-- The station that waits for packet 0 asks for packet -1, and nothing is sent again. -/
theorem firstLost_asks : ∃ link resets a, (linkMachine stations).run (Link.initial fun _ => 2) firstLost = some (link, resets) ∧
    (∀ reset ∈ resets, reset = false) ∧ link.transit true = [.s (-1) .rej] ∧ (link.side false).state = some a ∧ a.sabmeReq = 2 ∧
    getPkt a.sendBuf (-1) = none ∧ (handleREJ goBackN (-1) ⟨a, 2, [], [], []⟩).map Work.sent = some [] :=
  ⟨_, _, _, rfl, by decide, rfl, rfl, rfl, rfl, rfl⟩

theorem run_delivers_sample : ∃ link resets, (linkMachine stations).run (Link.initial fun _ => 2) packetLost = some (link, resets) ∧
    link.passed true = [⟨0, 10⟩] ∧ link.passed true <+: link.accepted false ∧
      ∀ p ∈ link.accepted false, (∀ a, (link.side false).state = some a → p ∉ a.sendBuf) → p ∈ link.passed true :=
  ⟨_, _, rfl, rfl, run_delivers rfl packetLost_calm (fun _ => (by decide : 1 ≤ goBackN.wnd ∧ goBackN.wnd ≤ mws)) false⟩

end HDLC

end Ns2
