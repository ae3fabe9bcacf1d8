import Ns2.Satellite.HdlcSendBuffer

namespace Ns2

namespace HDLC

/-- The packets with the numbers from 0 on. -/
def Numbered (accepted : List (Packet α)) : Prop :=
  accepted.map Packet.sendSeqno = (List.range accepted.length).map fun i : ℕ => (i : ℤ)

/-- The state buffers accepted packets, among them all those above the highest acknowledgement. -/
structure Sending (a : ARQstate α) (accepted : List (Packet α)) : Prop where
  numbers : Numbered accepted
  seqno : a.seqno = accepted.length
  low : -1 ≤ a.highestAck
  buffered : ∀ p ∈ a.sendBuf, p ∈ accepted
  kept : ∀ p ∈ accepted, a.highestAck < p.sendSeqno → p ∈ a.sendBuf

/-- A frame with one of the packets is within the window. -/
def Windowed (accepted : List (Packet α)) (upper : ℤ) (frame : Frame α) : Prop :=
  ∀ k p, frame = .i k p → p ∈ accepted ∧ p.sendSeqno ≤ upper

/-- A state that sends, and the data frames under way with those that it sends now. -/
structure Sender (config : Config) (there : List (Frame α)) (accepted : List (Packet α)) (w : Work α) : Prop where
  sending : Sending w.a (accepted ++ w.accepted)
  data : ∀ frame ∈ there ++ w.sent, Windowed (accepted ++ w.accepted) (w.a.highestAck + config.wnd) frame

/-- The routine leaves the sending part alone, and sends no data. -/
structure NoData (w w' : Work α) : Prop extends SameSender w w' where
  sent : ∃ more, w'.sent = w.sent ++ more ∧ ∀ k p, .i k p ∉ more

variable {α : Type*} {config : Config} {w w' : Work α} {a : ARQstate α} {p q : Packet α} {accepted : List (Packet α)} {there : List (Frame α)}
  {k n : ℤ}

theorem Numbered.number (numbers : Numbered accepted) (mem : p ∈ accepted) : 0 ≤ p.sendSeqno ∧ p.sendSeqno < accepted.length := by
  have number := List.mem_map_of_mem (f := Packet.sendSeqno) mem
  rw [numbers] at number
  obtain ⟨i, below, same⟩ := List.mem_map.mp number
  have small := List.mem_range.mp below
  omega

/-- The packet with a number stands at its place. -/
theorem Numbered.getElem? (numbers : Numbered accepted) {i : ℕ} : accepted[i]? = some p ↔ p ∈ accepted ∧ p.sendSeqno = i := by
  have at_place {q : Packet α} {j : ℕ} (found : accepted[j]? = some q) : q.sendSeqno = j := by
    obtain ⟨below, _⟩ := List.getElem?_eq_some_iff.mp found
    have number := congrArg (fun numbers => numbers[j]?) numbers
    simp only [List.getElem?_map, found, List.getElem?_range below, Option.map_some] at number
    exact Option.some.inj number
  constructor
  · exact fun found => ⟨List.mem_of_getElem? found, at_place found⟩
  · rintro ⟨mem, number⟩
    obtain ⟨j, found⟩ := List.getElem?_of_mem mem
    have same := at_place found
    have place : j = i := by omega
    rwa [← place]

theorem Numbered.concat (numbers : Numbered accepted) (data : α) : Numbered (accepted ++ [⟨accepted.length, data⟩]) := by
  rw [Numbered, List.map_append, numbers, List.length_append, List.length_singleton, List.range_succ, List.map_append]
  rfl

theorem Sending.getPkt (sending : Sending a accepted) (low : a.highestAck < n) (small : 0 ≤ n) (high : n < a.seqno) :
    (getPkt a.sendBuf n).isSome := by
  have length := sending.seqno
  obtain ⟨p, found⟩ : ∃ p, accepted[n.toNat]? = some p := ⟨_, List.getElem?_eq_getElem (by omega)⟩
  obtain ⟨mem, number⟩ := sending.numbers.getElem?.mp found
  have same : p.sendSeqno = n := by omega
  exact getPkt_isSome.mpr ⟨p, sending.kept p mem (same ▸ low), same⟩

theorem sending_newEntry (unset : ℤ) : Sending (newEntry unset : ARQstate α) [] := ⟨rfl, rfl, le_rfl, by simp [newEntry], by simp⟩

theorem Sending.mono {a' : ARQstate α} (sending : Sending a accepted) (seqno : a'.seqno = a.seqno) (highestAck : a'.highestAck = a.highestAck)
    (sendBuf : a'.sendBuf = a.sendBuf) : Sending a' accepted where
  numbers := sending.numbers
  seqno := seqno.trans sending.seqno
  low := highestAck ▸ sending.low
  buffered := sendBuf ▸ sending.buffered
  kept := highestAck ▸ sendBuf ▸ sending.kept

theorem Sending.acknowledged (sending : Sending a accepted) (k : ℤ) : Sending (a.acknowledged k) accepted := by
  unfold ARQstate.acknowledged
  split_ifs with new
  · have low := sending.low
    refine ⟨sending.numbers, sending.seqno, ?_, fun p mem => sending.buffered p (List.mem_of_mem_eraseP mem), fun p mem above => ?_⟩
    · dsimp only
      omega
    · dsimp only at above
      have other : p.sendSeqno ≠ k - 1 := by omega
      exact (List.mem_eraseP_of_neg (by simpa using other)).mpr (sending.kept p mem (by omega))
  · exact sending

/-- The highest acknowledgement only rises, to the number that is acknowledged. -/
theorem acknowledged_highestAck (k : ℤ) (a : ARQstate α) : (a.acknowledged k).highestAck = a.highestAck ∨
    a.highestAck < k - 1 ∧ (a.acknowledged k).highestAck = k - 1 := by
  unfold ARQstate.acknowledged
  split_ifs with new
  · exact Or.inr ⟨new.1, rfl⟩
  · exact Or.inl rfl

theorem Windowed.mono {more : List (Packet α)} {upper upper' : ℤ} {frame : Frame α} (windowed : Windowed accepted upper frame)
    (sub : accepted ⊆ more) (above : upper ≤ upper') : Windowed more upper' frame := fun k p same => by
  obtain ⟨mem, within⟩ := windowed k p same
  exact ⟨sub mem, within.trans above⟩

theorem Sender.sends (sender : Sender config there accepted w) (sends : Sends config w w') : Sender config there accepted w' := by
  obtain ⟨g, more, rfl, carried⟩ := sends
  refine ⟨sender.sending.mono rfl rfl rfl, fun frame mem => ?_⟩
  rcases List.mem_append.mp mem with earlier | now
  · exact sender.data frame (List.mem_append_left _ earlier)
  rcases List.mem_append.mp now with earlier | now
  · exact sender.data frame (List.mem_append_right _ earlier)
  cases carried frame now with
  | rr => exact fun _ _ same => by cases same
  | u utype => exact fun _ _ same => by cases same
  | i found window =>
    rintro k p ⟨⟩
    obtain ⟨mem, number⟩ := getPkt_eq_some found
    exact ⟨sender.sending.buffered _ mem, number.trans_le window⟩

theorem Sender.noData (sender : Sender config there accepted w) (noData : NoData w w') : Sender config there accepted w' := by
  obtain ⟨more, sent, none⟩ := noData.sent
  refine ⟨noData.accepted ▸ sender.sending.mono noData.seqno noData.highestAck noData.sendBuf, ?_⟩
  rw [sent, noData.accepted, noData.highestAck]
  intro frame mem
  rcases List.mem_append.mp mem with earlier | now
  · exact sender.data frame (List.mem_append_left _ earlier)
  rcases List.mem_append.mp now with earlier | now
  · exact sender.data frame (List.mem_append_right _ earlier)
  · exact fun k p same => absurd now (same ▸ none k p)

theorem Sender.inSendBuffer (sender : Sender config there accepted w) (data : α) :
    Sender config there accepted (inSendBuffer config data w) := by
  unfold HDLC.inSendBuffer
  split_ifs
  · exact sender
  have sending := sender.sending
  have place : (⟨w.a.seqno, data⟩ : Packet α) = ⟨(accepted ++ w.accepted).length, data⟩ := by rw [sending.seqno]
  refine ⟨?_, fun frame mem => (sender.data frame mem).mono ?_ le_rfl⟩
  · dsimp only
    rw [← List.append_assoc, place]
    refine ⟨sending.numbers.concat data, ?_, sending.low, fun p mem => ?_, fun p mem above => ?_⟩
    · have length := sending.seqno
      simp only [List.length_append, List.length_singleton] at length ⊢
      omega
    · exact List.mem_append.mpr ((List.mem_append.mp mem).imp_left (sending.buffered p))
    · refine List.mem_append.mpr ((List.mem_append.mp mem).imp_left fun earlier => sending.kept p earlier above)
  · rw [← List.append_assoc]
    exact List.subset_append_left _ _

theorem Sender.acknowledged (sender : Sender config there accepted w) (k : ℤ) : Sender config there accepted (w.acknowledged k) := by
  refine ⟨sender.sending.acknowledged k, fun frame mem => (sender.data frame mem).mono (List.Subset.refl _) ?_⟩
  change w.a.highestAck + _ ≤ (w.a.acknowledged k).highestAck + _
  rcases acknowledged_highestAck k w.a with same | ⟨above, same⟩ <;> omega

theorem Sender.piggyback (sender : Sender config there accepted w) (rseq : ℤ) : Sender config there accepted (w.piggyback rseq) := by
  unfold Work.piggyback
  split_ifs
  · exact sender.acknowledged rseq
  · exact sender

theorem noteMaxseen_noData (p : Packet α) (w : Work α) : NoData w (noteMaxseen p w) := by
  refine ⟨noteMaxseen_sameSender p w, ?_⟩
  unfold noteMaxseen
  split_ifs
  · exact ⟨_, rfl, fun k q mem => by simp [rejections] at mem⟩
  · exact ⟨[], by simp, by simp⟩

theorem deliverFrom_sent (fuel : ℕ) (w : Work α) : (deliverFrom fuel w).sent = w.sent := by
  induction fuel generalizing w with
  | zero => rfl
  | succ fuel ih =>
    rw [deliverFrom]
    split
    · rfl
    · exact ih _

theorem recorded_noData (p : Packet α) (w : Work α) : NoData w (w.recorded p) :=
  ⟨recorded_sameSender p w, [], by rw [List.append_nil]; exact deliverFrom_sent .., by simp⟩

theorem Sender.receive (sender : Sender config there accepted w) (done : receive config p w = some w') :
    Sender config there accepted w' := by
  unfold HDLC.receive at done
  split_ifs at done
  · cases done
    have noted := sender.noData (noteMaxseen_noData p w)
    rcases selectiveRepeatMode_cases config p w with sends | ⟨_, _, sends⟩
    · exact noted.sends sends
    · exact (noted.noData (recorded_noData ..)).sends sends
  · rcases goBackNMode_cases done with ⟨_, sends⟩ | ⟨_, _, rfl⟩ | ⟨_, sends⟩
    · have received : NoData w (w.received p) := ⟨⟨rfl, rfl, rfl, rfl⟩, [], by simp [Work.received], by simp⟩
      exact (sender.noData received).sends sends
    · have rejected : NoData w w.rejected := ⟨⟨rfl, rfl, rfl, rfl⟩, [.s w.a.recvSeqno .rej], rfl, by simp⟩
      exact sender.noData rejected
    · exact sender.sends sends

/-- A step keeps the sending part in order, if the packet asked for by an SREJ is one of the window. -/
theorem Sender.turn {input : Input α} (sender : Sender config there accepted w)
    (asked : ∀ unset k, input = .incoming unset false (.s k .srej) → k ≤ w.a.highestAck + config.wnd) (turn : Turn config w input w') :
    Sender config there accepted w' := by
  cases turn with
  | sends sends => exact sender.sends sends
  | outgoing before sends => exact ((sender.sends before).inSendBuffer _).sends sends
  | acknowledged sends => exact (sender.acknowledged _).sends sends
  | @resends k unset p _ found =>
    have sends : Sends config w { output config p k w with a.tSeqno := w.a.tSeqno } := output_sends found (asked unset k rfl) _
    exact sender.sends sends
  | @receives rseq _ p w₁ _ _ _ before received sends =>
    have opened : NoData w₁ (w₁.opened p) := ⟨⟨rfl, rfl, rfl, rfl⟩, [], by simp [Work.opened], by simp⟩
    exact (((((sender.piggyback rseq).sends before).noData opened).receive received).sends sends)

/-- The highest acknowledgement after a step. -/
theorem Turn.highestAck {input : Input α} (turn : Turn config w input w') : w'.a.highestAck = w.a.highestAck ∨
    ∃ k, input.acks = some k ∧ w.a.highestAck < k - 1 ∧ w'.a.highestAck = k - 1 := by
  cases turn with
  | sends sends => exact Or.inl sends.sameSender.highestAck
  | outgoing before sends =>
    have stored (data : α) (w : Work α) : (HDLC.inSendBuffer config data w).a.highestAck = w.a.highestAck := by
      unfold HDLC.inSendBuffer
      split_ifs <;> rfl
    exact Or.inl (sends.sameSender.highestAck.trans ((stored _ _).trans before.sameSender.highestAck))
  | @acknowledged k _ _ sends =>
    rw [sends.sameSender.highestAck]
    exact (acknowledged_highestAck k w.a).imp_right fun raised => ⟨k, rfl, raised⟩
  | resends _ _ => exact Or.inl rfl
  | @receives rseq _ p w₁ _ _ _ before received sends =>
    have same : w'.a.highestAck = (w.piggyback rseq).a.highestAck :=
      sends.sameSender.highestAck.trans ((receive_sameSender received).highestAck.trans before.sameSender.highestAck)
    rw [same]
    unfold Work.piggyback
    split_ifs with valid
    · exact (acknowledged_highestAck rseq w.a).imp_right fun raised => ⟨rseq, if_pos valid, raised⟩
    · exact Or.inl rfl

/-- The work of a step becomes a part of the past. -/
theorem Sender.rest (sender : Sender config there accepted w) (maxTimeouts : ℤ) :
    Sender config (there ++ w.sent) (accepted ++ w.accepted) ⟨w.a, maxTimeouts, [], [], []⟩ :=
  ⟨by simpa using sender.sending, by simpa using sender.data⟩

/-- Frames get lost or come in. -/
theorem Sender.sublist {rest : List (Frame α)} (sender : Sender config there accepted w) (sub : rest.Sublist there) :
    Sender config rest accepted w :=
  ⟨sender.sending, fun frame mem => sender.data frame ((sub.append_right w.sent).mem mem)⟩

end HDLC

end Ns2
