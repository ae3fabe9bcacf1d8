import Ns2.Satellite.HdlcSender

namespace Ns2

namespace HDLC

/-- The number that a frame acknowledges up to. -/
def Frame.ackno : Frame α → Option ℤ
  | .i k _ | .s k .rr => some k
  | _ => none

/-- The number that a frame asks for again. -/
def Frame.asks : Frame α → Option ℤ
  | .s n .rej | .s n .srej => some n
  | _ => none

/-- The numbers asked for are not below those acknowledged before. -/
def AskedLater (earlier later : Frame α) : Prop := ∀ k n, earlier.ackno = some k → later.asks = some n → k ≤ n

/-- A state that receives the packets accepted at the other end, of which those up to `h` are acknowledged there,
with the frames under way to that end and the packets passed up. Under `strict` every number that is asked for
is one not yet acknowledged. -/
structure Receiver (config : Config) (strict : Prop) (accepted : List (Packet α)) (h wnd : ℤ) (back : List (Frame α))
    (passed : List (Packet α)) (w : Work α) : Prop where
  low : -1 ≤ w.a.ackSeqno config ∧ (config.selRepeat = true → 0 ≤ w.a.ackSeqno config)
  behind : h < max (w.a.ackSeqno config) 0
  acks : ∀ frame ∈ back ++ w.sent, ∀ k, frame.ackno = some k → k ≤ w.a.ackSeqno config
  asks : ∀ frame ∈ back ++ w.sent, ∀ n, frame.asks = some n → n < accepted.length ∧ n ≤ h + wnd ∧ (strict → h < n)
  order : strict → (back ++ w.sent).Pairwise AskedLater
  seen : config.selRepeat = true → ∀ m p, w.a.seen m = some p →
    p ∈ accepted ∧ slot p.sendSeqno = m ∧ w.a.nextpkt ≤ p.sendSeqno ∧ p.sendSeqno ≤ w.a.maxseen ∧ p.sendSeqno ≤ h + wnd
  edge : config.selRepeat = true → w.a.nextpkt ≤ max (w.a.maxseen + 1) 0 ∧ (strict → -1 ≤ w.a.maxseen)
  passed : wnd ≤ mws → w.a.ackSeqno config ≤ accepted.length ∧ passed ++ w.up = accepted.take (w.a.ackSeqno config).toNat

variable {α : Type*} {config : Config} {strict : Prop} {accepted passed : List (Packet α)} {h wnd : ℤ} {back more : List (Frame α)}
  {w w' : Work α} {p : Packet α} {k : ℤ}

theorem ackSeqno_selRepeat (repeats : config.selRepeat = true) (a : ARQstate α) : a.ackSeqno config = a.nextpkt := if_pos repeats

theorem ackSeqno_goBack (goBack : config.selRepeat ≠ true) (a : ARQstate α) : a.ackSeqno config = a.recvSeqno := if_neg goBack

/-- Frames that acknowledge no more than was received and, if they ask for a number, ask for one that is missing. -/
theorem Receiver.append (receiver : Receiver config strict accepted h wnd back passed w)
    (recvSeqno : w'.a.recvSeqno = w.a.recvSeqno) (nextpkt : w'.a.nextpkt = w.a.nextpkt) (maxseen : w'.a.maxseen = w.a.maxseen)
    (seen : w'.a.seen = w.a.seen) (up : w'.up = w.up) (sent : w'.sent = w.sent ++ more)
    (acks : ∀ frame ∈ more, ∀ k, frame.ackno = some k → k ≤ w.a.ackSeqno config)
    (asks : ∀ frame ∈ more, ∀ n, frame.asks = some n →
      n < accepted.length ∧ n ≤ h + wnd ∧ (strict → h < n ∧ w.a.ackSeqno config ≤ n))
    (order : more.Pairwise AskedLater) : Receiver config strict accepted h wnd back passed w' := by
  have level : w'.a.ackSeqno config = w.a.ackSeqno config := by rw [ARQstate.ackSeqno, recvSeqno, nextpkt]; rfl
  have frames : back ++ w'.sent = back ++ w.sent ++ more := by rw [sent, List.append_assoc]
  refine ⟨level ▸ receiver.low, level ▸ receiver.behind, fun frame mem k acked => ?_, fun frame mem n asked => ?_, fun exact => ?_,
    ?_, ?_, level ▸ up ▸ receiver.passed⟩
  · rw [frames] at mem
    rw [level]
    rcases List.mem_append.mp mem with earlier | now
    · exact receiver.acks frame earlier k acked
    · exact acks frame now k acked
  · rw [frames] at mem
    rcases List.mem_append.mp mem with earlier | now
    · exact receiver.asks frame earlier n asked
    · obtain ⟨known, window, above⟩ := asks frame now n asked
      exact ⟨known, window, fun exact => (above exact).1⟩
  · rw [frames]
    refine List.pairwise_append.mpr ⟨receiver.order exact, order, fun earlier before later now k n acked asked => ?_⟩
    have bound := receiver.acks earlier before k acked
    exact bound.trans ((asks later now n asked).2.2 exact).2
  · rw [seen, nextpkt, maxseen]
    exact receiver.seen
  · rw [nextpkt, maxseen]
    exact receiver.edge

theorem Carried.ackno {frame : Frame α} {a : ARQstate α} (carried : Carried config a frame) {k : ℤ} (acked : frame.ackno = some k) :
    k = a.ackSeqno config := by
  cases carried <;> cases acked <;> rfl

theorem Carried.asks {frame : Frame α} {a : ARQstate α} (carried : Carried config a frame) : frame.asks = none := by
  cases carried <;> rfl

theorem Receiver.sends (receiver : Receiver config strict accepted h wnd back passed w) (sends : Sends config w w') :
    Receiver config strict accepted h wnd back passed w' := by
  obtain ⟨g, more, rfl, carried⟩ := sends
  refine receiver.append rfl rfl rfl rfl rfl rfl (fun frame mem k acked => ((carried frame mem).ackno acked).le)
    (fun frame mem n asked => ?_) (List.pairwise_of_forall_mem_list fun _ _ later mem k n _ asked => ?_)
  · rw [(carried frame mem).asks] at asked
    cases asked
  · rw [(carried later mem).asks] at asked
    cases asked

/-- A routine that has not to do with the receiving part. -/
theorem Receiver.same (receiver : Receiver config strict accepted h wnd back passed w)
    (recvSeqno : w'.a.recvSeqno = w.a.recvSeqno) (nextpkt : w'.a.nextpkt = w.a.nextpkt) (maxseen : w'.a.maxseen = w.a.maxseen)
    (seen : w'.a.seen = w.a.seen) (up : w'.up = w.up) (sent : w'.sent = w.sent) :
    Receiver config strict accepted h wnd back passed w' :=
  receiver.append recvSeqno nextpkt maxseen seen up (sent.trans (List.append_nil _).symm) (by simp) (by simp) .nil

theorem Receiver.opened (receiver : Receiver config strict accepted h wnd back passed w) (p : Packet α) :
    Receiver config strict accepted h wnd back passed (w.opened p) := by
  by_cases first : p.sendSeqno = 0 ∧ w.a.recvSeqno = -1
  · have opens : w.opened p = { w with a.recvSeqno := 0 } := by rw [Work.opened, if_pos first]
    rw [opens]
    by_cases repeats : config.selRepeat = true
    · have level : ({ w.a with recvSeqno := 0 } : ARQstate α).ackSeqno config = w.a.ackSeqno config := by
        rw [ackSeqno_selRepeat repeats, ackSeqno_selRepeat repeats]
      exact ⟨level ▸ receiver.low, level ▸ receiver.behind, level ▸ receiver.acks, receiver.asks, receiver.order, receiver.seen,
        receiver.edge, level ▸ receiver.passed⟩
    · have before : w.a.ackSeqno config = -1 := (ackSeqno_goBack repeats _).trans first.2
      have after : ({ w.a with recvSeqno := 0 } : ARQstate α).ackSeqno config = 0 := ackSeqno_goBack repeats _
      have behind := receiver.behind
      refine ⟨?_, ?_, fun frame mem k acked => ?_, receiver.asks, receiver.order, receiver.seen, receiver.edge, fun small => ?_⟩
      · rw [after]
        exact ⟨by omega, fun _ => le_rfl⟩
      · rw [after]
        omega
      · have bound := receiver.acks frame mem k acked
        rw [after]
        omega
      · rw [after]
        have passed := (receiver.passed small).2
        rw [before] at passed
        exact ⟨by omega, passed⟩
  · have same : w.opened p = w := by rw [Work.opened, if_neg first]
    rwa [same]

/-- One packet more is passed up. -/
theorem take_next (numbers : Numbered accepted) (mem : p ∈ accepted) {level : ℤ} (number : p.sendSeqno = level)
    (taken : passed = accepted.take level.toNat) :
    level + 1 ≤ accepted.length ∧ passed ++ [p] = accepted.take (level + 1).toNat := by
  obtain ⟨small, inside⟩ := numbers.number mem
  have next : (level + 1).toNat = level.toNat + 1 := by omega
  have found : accepted[level.toNat]? = some p := numbers.getElem?.mpr ⟨mem, by omega⟩
  refine ⟨by omega, ?_⟩
  rw [next, List.take_add_one, found, taken]
  rfl

theorem Receiver.goBackN (receiver : Receiver config strict accepted h wnd back passed w) (goBack : config.selRepeat ≠ true)
    (numbers : Numbered accepted) (data : Windowed accepted (h + wnd) (.i k p)) (ready : strict → 0 ≤ w.a.recvSeqno)
    (done : goBackNMode config p w = some w') : Receiver config strict accepted h wnd back passed w' := by
  obtain ⟨mem, window⟩ := data k p rfl
  have level : w.a.ackSeqno config = w.a.recvSeqno := ackSeqno_goBack goBack _
  rcases goBackNMode_cases done with ⟨inOrder, sends⟩ | ⟨later, _, rfl⟩ | ⟨_, sends⟩
  · refine Receiver.sends ?_ sends
    have next : (w.received p).a.ackSeqno config = w.a.recvSeqno + 1 := ackSeqno_goBack goBack _
    have low := receiver.low.1
    have behind := receiver.behind
    rw [level] at low behind
    refine ⟨?_, ?_, fun frame mem k acked => ?_, receiver.asks, receiver.order, fun repeats => absurd repeats goBack,
      fun repeats => absurd repeats goBack, fun small => ?_⟩
    · rw [next]
      exact ⟨by omega, fun repeats => absurd repeats goBack⟩
    · rw [next]
      omega
    · have bound := receiver.acks frame mem k acked
      rw [next]
      omega
    · have passed := (receiver.passed small).2
      rw [level] at passed
      rw [next]
      obtain ⟨inside, taken⟩ := take_next numbers mem inOrder passed
      exact ⟨inside, by rw [← taken]; simp [Work.received]⟩
  · refine receiver.append rfl rfl rfl rfl rfl rfl (fun frame mem k acked => ?_) (fun frame mem n asked => ?_)
      (List.pairwise_singleton _ _)
    · cases List.mem_singleton.mp mem
      cases acked
    · cases List.mem_singleton.mp mem
      cases asked
      obtain ⟨_, inside⟩ := numbers.number ‹p ∈ accepted›
      refine ⟨by omega, by omega, fun exact => ?_⟩
      have low := ready exact
      have behind := receiver.behind
      rw [level] at behind ⊢
      exact ⟨by omega, le_rfl⟩
  · exact receiver.sends sends

theorem mem_rejections {first seq : ℤ} {frame : Frame α} (mem : frame ∈ rejections first seq) :
    ∃ n, frame = .s n .srej ∧ first ≤ n ∧ n < seq := by
  obtain ⟨i, below, rfl⟩ := List.mem_map.mp mem
  have small := List.mem_range.mp below
  exact ⟨first + i, rfl, by omega, by omega⟩

theorem Receiver.noteMaxseen (receiver : Receiver config strict accepted h wnd back passed w) (repeats : config.selRepeat = true)
    (numbers : Numbered accepted) (data : Windowed accepted (h + wnd) (.i k p)) :
    Receiver config strict accepted h wnd back passed (noteMaxseen p w) ∧ p.sendSeqno ≤ (noteMaxseen p w).a.maxseen := by
  obtain ⟨mem, window⟩ := data k p rfl
  obtain ⟨small, inside⟩ := numbers.number mem
  have level : w.a.ackSeqno config = w.a.nextpkt := ackSeqno_selRepeat repeats _
  unfold HDLC.noteMaxseen
  split_ifs with new
  · obtain ⟨edge, filled⟩ := receiver.edge repeats
    have asking : Receiver config strict accepted h wnd back passed
        { w with sent := w.sent ++ rejections (w.a.maxseen + 1) p.sendSeqno } := by
      refine receiver.append rfl rfl rfl rfl rfl rfl (fun frame asked k acked => ?_) (fun frame asked n number => ?_)
        (List.pairwise_of_forall_mem_list fun earlier before _ _ k _ acked _ => ?_)
      · obtain ⟨n, rfl, _⟩ := mem_rejections asked
        cases acked
      · obtain ⟨n, rfl, low, high⟩ := mem_rejections asked
        cases number
        refine ⟨by omega, by omega, fun exact => ?_⟩
        have known := filled exact
        have behind := receiver.behind
        have start := receiver.low.2 repeats
        rw [level] at behind start ⊢
        exact ⟨by omega, by omega⟩
      · obtain ⟨n, rfl, _⟩ := mem_rejections before
        cases acked
    refine ⟨⟨asking.low, asking.behind, asking.acks, asking.asks, asking.order, fun _ m q stored => ?_, fun _ => ?_, asking.passed⟩, le_rfl⟩
    · dsimp only at stored ⊢
      by_cases own : m = slot p.sendSeqno
      · rw [own, Function.update_self] at stored
        cases stored
        exact ⟨mem, own.symm, by omega, le_rfl, window⟩
      · rw [Function.update_of_ne own] at stored
        obtain ⟨known, place, low, high, within⟩ := receiver.seen repeats m q stored
        exact ⟨known, place, low, by omega, within⟩
    · dsimp only
      exact ⟨by omega, fun _ => by omega⟩
  · exact ⟨receiver, by omega⟩

/-- Each turn passes up the packet with the next number, as no packet in a slot is a whole window ahead. -/
theorem Receiver.deliverFrom (repeats : config.selRepeat = true) (numbers : Numbered accepted) (fuel : ℕ)
    (receiver : Receiver config strict accepted h wnd back passed w) :
    Receiver config strict accepted h wnd back passed (deliverFrom fuel w) := by
  induction fuel generalizing w with
  | zero => exact receiver
  | succ fuel ih =>
    rw [HDLC.deliverFrom]
    split
    · exact receiver
    rename_i q stored
    refine ih ?_
    obtain ⟨mem, place, low, high, within⟩ := receiver.seen repeats _ q stored
    have level : w.a.ackSeqno config = w.a.nextpkt := ackSeqno_selRepeat repeats _
    have start := receiver.low.2 repeats
    have behind := receiver.behind
    rw [level] at start behind
    refine ⟨?_, ?_, fun frame mem k acked => ?_, receiver.asks, receiver.order, fun _ m r kept => ?_, fun _ => ?_, fun small => ?_⟩
    · rw [ackSeqno_selRepeat repeats]
      dsimp only
      exact ⟨by omega, fun _ => by omega⟩
    · rw [ackSeqno_selRepeat repeats]
      dsimp only
      omega
    · have bound := receiver.acks frame mem k acked
      rw [ackSeqno_selRepeat repeats]
      dsimp only
      omega
    · dsimp only at kept ⊢
      by_cases own : m = slot w.a.nextpkt
      · rw [own, Function.update_self] at kept
        cases kept
      · rw [Function.update_of_ne own] at kept
        obtain ⟨known, place', low', high', within'⟩ := receiver.seen repeats m r kept
        have other : r.sendSeqno ≠ w.a.nextpkt := fun same => own (by rw [← place', same])
        exact ⟨known, place', by omega, high', within'⟩
    · dsimp only
      exact ⟨by omega, (receiver.edge repeats).2⟩
    · have same : q.sendSeqno = w.a.nextpkt := by
        unfold slot mws at place
        unfold mws at small
        omega
      have passed := (receiver.passed small).2
      rw [level] at passed
      rw [ackSeqno_selRepeat repeats, ← List.append_assoc]
      exact take_next numbers mem same passed

theorem Receiver.recorded (receiver : Receiver config strict accepted h wnd back passed w) (repeats : config.selRepeat = true)
    (numbers : Numbered accepted) (data : Windowed accepted (h + wnd) (.i k p)) (low : w.a.nextpkt ≤ p.sendSeqno)
    (high : p.sendSeqno ≤ w.a.maxseen) : Receiver config strict accepted h wnd back passed (w.recorded p) := by
  obtain ⟨mem, window⟩ := data k p rfl
  refine Receiver.deliverFrom repeats numbers _ ⟨receiver.low, receiver.behind, receiver.acks, receiver.asks, receiver.order,
    fun _ m q stored => ?_, receiver.edge, receiver.passed⟩
  dsimp only at stored ⊢
  by_cases own : m = slot p.sendSeqno
  · rw [own, Function.update_self] at stored
    cases stored
    exact ⟨mem, own.symm, low, high, window⟩
  · rw [Function.update_of_ne own] at stored
    exact receiver.seen repeats m q stored

theorem Receiver.receive (receiver : Receiver config strict accepted h wnd back passed w) (numbers : Numbered accepted)
    (data : Windowed accepted (h + wnd) (.i k p)) (ready : strict → config.selRepeat ≠ true → 0 ≤ w.a.recvSeqno)
    (done : receive config p w = some w') : Receiver config strict accepted h wnd back passed w' := by
  unfold HDLC.receive at done
  split_ifs at done with repeats
  · cases done
    obtain ⟨noted, high⟩ := receiver.noteMaxseen repeats numbers data
    rcases selectiveRepeatMode_cases config p w with sends | ⟨low, _, sends⟩
    · exact noted.sends sends
    · exact (noted.recorded repeats numbers data low high).sends sends
  · exact receiver.goBackN repeats numbers data (fun exact => ready exact repeats) done

theorem Receiver.acknowledged (receiver : Receiver config strict accepted h wnd back passed w) (k : ℤ) :
    Receiver config strict accepted h wnd back passed (w.acknowledged k) := by
  unfold Work.acknowledged ARQstate.acknowledged
  split_ifs
  · exact receiver.same rfl rfl rfl rfl rfl rfl
  · exact receiver

theorem Receiver.piggyback (receiver : Receiver config strict accepted h wnd back passed w) (rseq : ℤ) :
    Receiver config strict accepted h wnd back passed (w.piggyback rseq) := by
  unfold Work.piggyback
  split_ifs
  · exact receiver.acknowledged rseq
  · exact receiver

theorem Receiver.inSendBuffer (receiver : Receiver config strict accepted h wnd back passed w) (own : Config) (data : α) :
    Receiver config strict accepted h wnd back passed (inSendBuffer own data w) := by
  unfold HDLC.inSendBuffer
  split_ifs
  · exact receiver
  · exact receiver.same rfl rfl rfl rfl rfl rfl

/-- Before packet 0 has come, no packet but that one is received. -/
def FirstReady (config : Config) (a : ARQstate α) (input : Input α) : Prop :=
  config.selRepeat ≠ true → ∀ unset k p, input = .incoming unset false (.i k p) → a.sabmeReq ≠ 1 → a.recvSeqno = -1 → p.sendSeqno = 0

theorem Receiver.turn {input : Input α} (receiver : Receiver config strict accepted h wnd back passed w) (numbers : Numbered accepted)
    (data : ∀ unset frame, input = .incoming unset false frame → Windowed accepted (h + wnd) frame)
    (ready : strict → FirstReady config w.a input) (turn : Turn config w input w') :
    Receiver config strict accepted h wnd back passed w' := by
  cases turn with
  | sends sends => exact receiver.sends sends
  | outgoing before sends => exact ((receiver.sends before).inSendBuffer _ _).sends sends
  | acknowledged sends => exact (receiver.acknowledged _).sends sends
  | resends _ _ =>
    refine receiver.append rfl rfl rfl rfl rfl rfl (fun frame mem k acked => ?_) (fun frame mem n asked => ?_)
      (List.pairwise_singleton _ _)
    · cases List.mem_singleton.mp mem
      cases acked
      exact le_rfl
    · cases List.mem_singleton.mp mem
      cases asked
  | @receives rseq unset p w₁ w₂ _ connected before received sends =>
    have arrived := (receiver.piggyback rseq).sends before
    have data : Windowed accepted (h + wnd) (.i rseq p) := data unset _ rfl
    refine ((arrived.opened p).receive numbers data (fun exact goBack => ?_) received).sends sends
    have known : w₁.a.recvSeqno = w.a.recvSeqno := by
      obtain ⟨g, more, rfl, _⟩ := before
      change (w.piggyback rseq).a.recvSeqno = _
      unfold Work.piggyback Work.acknowledged ARQstate.acknowledged
      split_ifs <;> rfl
    have low := arrived.low.1
    rw [ackSeqno_goBack goBack] at low
    change 0 ≤ if p.sendSeqno = 0 ∧ w₁.a.recvSeqno = -1 then 0 else w₁.a.recvSeqno
    split_ifs with first
    · exact le_rfl
    · have zero := ready exact goBack unset rseq p rfl connected
      omega

/-- The other end accepts more packets, or takes an acknowledgement from the frames under way. -/
theorem Receiver.remote {new : List (Packet α)} {h' : ℤ} {rest : List (Frame α)}
    (receiver : Receiver config strict accepted h wnd back passed w) (unsent : w.sent = []) (sub : rest.Sublist back)
    (raised : h ≤ h') (behind : h' < max (w.a.ackSeqno config) 0)
    (asked : strict → ∀ frame ∈ rest, ∀ n, frame.asks = some n → h' < n) :
    Receiver config strict (accepted ++ new) h' wnd rest passed w where
  low := receiver.low
  behind := behind
  acks frame mem := by
    rw [unsent, List.append_nil] at mem
    exact receiver.acks frame (by rw [unsent, List.append_nil]; exact sub.mem mem)
  asks frame mem n number := by
    rw [unsent, List.append_nil] at mem
    obtain ⟨known, window, _⟩ := receiver.asks frame (by rw [unsent, List.append_nil]; exact sub.mem mem) n number
    rw [List.length_append]
    exact ⟨by omega, by omega, fun exact => asked exact frame mem n number⟩
  order exact := by
    have order := receiver.order exact
    rw [unsent, List.append_nil] at order ⊢
    exact order.sublist sub
  seen repeats m p stored := by
    obtain ⟨mem, place, low, high, within⟩ := receiver.seen repeats m p stored
    exact ⟨List.mem_append_left _ mem, place, low, high, by omega⟩
  edge := receiver.edge
  passed small := by
    obtain ⟨inside, passed⟩ := receiver.passed small
    rw [List.length_append, List.take_append_of_le_length (by omega)]
    exact ⟨by omega, passed⟩

/-- The work of a step becomes a part of the past. -/
theorem Receiver.rest (receiver : Receiver config strict accepted h wnd back passed w) (maxTimeouts : ℤ) :
    Receiver config strict accepted h wnd (back ++ w.sent) (passed ++ w.up) ⟨w.a, maxTimeouts, [], [], []⟩ :=
  ⟨receiver.low, receiver.behind, by simpa using receiver.acks, by simpa using receiver.asks, by simpa using receiver.order,
    receiver.seen, receiver.edge, by simpa using receiver.passed⟩

end HDLC

end Ns2
