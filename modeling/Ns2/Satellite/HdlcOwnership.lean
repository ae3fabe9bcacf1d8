import Ns2.Satellite.HdlcCustody
import Mathlib.Tactic.Abel

namespace Ns2

namespace HDLC

variable {α : Type*} {config : Config} {w w' : Work α} {a a' : ARQstate α} {p : Packet α} {n : ℤ} {buffer : List (Packet α)}

theorem held_congr (sendBuf : a'.sendBuf = a.sendBuf) (save : a'.save = a.save) (seen : a'.seen = a.seen) : a'.held config = a.held config := by
  unfold ARQstate.held purged
  rw [sendBuf, save, seen]

theorem untouched_accounts (sendBuf : a'.sendBuf = a.sendBuf) (save : a'.save = a.save) (seen : a'.seen = a.seen) :
    custody.Accounts (a.held config) [] (a'.held config) := by
  rw [held_congr sendBuf save seen]
  exact .refl _

theorem freeSave_accounts (sendBuf : a'.sendBuf = a.sendBuf) (save : a'.save = none) (seen : a'.seen = a.seen) :
    custody.Accounts (a.held config) (freeSave a) (a'.held config) := by
  unfold Custody.Accounts freeSave ARQstate.held purged
  rw [sendBuf, save, seen]
  cases a.save with
  | none => simp
  | some q =>
    change _ + ({.copy q.data} : Multiset (Piece α)) + _ + 0 = {.copy q.data} + 0 + (_ + (0 : Multiset (Piece α)) + _)
    abel

theorem output_accounts (config : Config) (p : Packet α) (n t : ℤ) (w : Work α) :
    custody.Accounts (w.a.held config) (outputEvents w) ({ output config p n w with a.tSeqno := t }.a.held config) :=
  freeSave_accounts rfl rfl rfl

theorem sendFrom_accounts (config : Config) (fuel : ℕ) (w : Work α) :
    custody.Accounts (w.a.held config) (sendFromEvents config fuel w) ((sendFrom config fuel w).a.held config) := by
  induction fuel generalizing w with
  | zero => exact .refl _
  | succ fuel ih =>
    rw [sendFrom, sendFromEvents]
    cases dataToSend config w.a with
    | none => exact .refl _
    | some p => exact (output_accounts config p w.a.tSeqno (w.a.tSeqno + 1) w).trans (ih _)

theorem sendMuch_accounts (done : sendMuch config w = some w') :
    custody.Accounts (w.a.held config) (sendMuchEvents config w) (w'.a.held config) := by
  unfold sendMuch at done
  split_ifs at done
  cases done
  exact sendFrom_accounts config _ w

theorem ack_accounts (config : Config) (w : Work α) :
    custody.Accounts (w.a.held config) (ackEvents config w) ((ack config w).a.held config) := by
  unfold ack ackEvents
  cases if w.a.tSeqno > 0 then dataToSend config w.a else none with
  | none => exact .refl _
  | some p => exact output_accounts config p w.a.tSeqno (w.a.tSeqno + 1) w

/-- The saved packet is freed once if there is nothing to send. -/
theorem delayTimeout_accounts (idle : w.a.save.isSome → ¬(w.a.tSeqno > 0 ∧ (dataToSend config w.a).isSome)) :
    custody.Accounts (w.a.held config) (delayTimeoutEvents config w) ((delayTimeout config w).a.held config) := by
  unfold delayTimeout delayTimeoutEvents
  cases save : w.a.save with
  | none => exact .refl _
  | some pkt =>
    have nothing : (if w.a.tSeqno > 0 then dataToSend config w.a else none) = none := by
      split_ifs with started
      · exact Option.not_isSome_iff_eq_none.mp fun some => idle (by rw [save]; rfl) ⟨started, some⟩
      · rfl
    have freed : freeSave w.a = [.free (.copy pkt.data)] := by
      rw [freeSave, save]
      rfl
    have silent : ackEvents config w = [] := by rw [ackEvents, nothing]
    have answer : ack config w = w.send (.s (w.a.ackSeqno config) .rr) := by rw [ack, nothing]
    change custody.Accounts _ (ackEvents config w ++ [.free (.copy pkt.data)]) _
    rw [silent, List.nil_append, answer, ← freed]
    exact freeSave_accounts rfl rfl rfl

theorem perm_cons_remove (found : getPkt buffer n = some p) : buffer.Perm (p :: remove buffer n) := by
  induction buffer with
  | nil => cases found
  | cons q buffer ih =>
    unfold getPkt remove at *
    by_cases same : q.sendSeqno = n
    · rw [List.find?_cons_of_pos (by simpa using same)] at found
      cases found
      rw [List.eraseP_cons_of_pos (by simpa using same)]
    · rw [List.find?_cons_of_neg (by simpa using same)] at found
      rw [List.eraseP_cons_of_neg (by simpa using same)]
      exact ((ih found).cons q).trans (.swap p q _)

theorem remove_accounts (found : getPkt a.sendBuf n = some p) (sendBuf : a'.sendBuf = remove a.sendBuf n) (save : a'.save = a.save)
    (seen : a'.seen = a.seen) : custody.Accounts (a.held config) (removeEvents a.sendBuf n) (a'.held config) := by
  have split : ((a.sendBuf.map Packet.piece : List (Piece α)) : Multiset (Piece α)) = p.piece ::ₘ ((remove a.sendBuf n).map Packet.piece : List (Piece α)) :=
    Multiset.coe_eq_coe.mpr ((perm_cons_remove found).map Packet.piece)
  unfold Custody.Accounts removeEvents ARQstate.held purged
  rw [sendBuf, save, seen, found, split]
  simp [custody]

theorem handlePiggyAck_accounts {rseq : ℤ} (done : handlePiggyAck rseq w = some w') :
    custody.Accounts (w.a.held config) (handlePiggyAckEvents rseq w) (w'.a.held config) := by
  unfold handlePiggyAck at done
  unfold handlePiggyAckEvents
  dsimp only at *
  split_ifs at * with new
  · split at done
    · cases done
    · rename_i found
      cases done
      exact remove_accounts found rfl rfl rfl
  · cases done
    exact untouched_accounts rfl rfl rfl

theorem readPiggyAck_accounts {rseq : ℤ} (done : readPiggyAck rseq w = some w') :
    custody.Accounts (w.a.held config) (readPiggyAckEvents rseq w) (w'.a.held config) := by
  unfold readPiggyAck at done
  unfold readPiggyAckEvents
  split_ifs at *
  · exact handlePiggyAck_accounts done
  · cases done
    exact .refl _

theorem receiveRR_accounts {k : ℤ} (new : k - 1 > w.a.highestAck) :
    custody.Accounts (w.a.held config) (removeEvents w.a.sendBuf (k - 1)) ((receiveRR k w).a.held config) := by
  unfold receiveRR
  dsimp only
  rw [if_pos new]
  cases found : getPkt w.a.sendBuf (k - 1) with
  | none =>
    rw [removeEvents, found]
    exact untouched_accounts rfl rfl rfl
  | some p => exact remove_accounts found rfl rfl rfl

theorem acceptInOrder_accounts (done : acceptInOrder config p w = some w') :
    custody.Accounts (w.a.held config + {p.piece}) (acceptInOrderEvents config p w) (w'.a.held config) := by
  unfold acceptInOrder at done
  unfold acceptInOrderEvents
  split_ifs at * with delayed pending saved
  · cases done
    exact Custody.Accounts.lose rfl (untouched_accounts rfl rfl rfl)
  · cases done
    have empty : w.a.save = none := Option.not_isSome_iff_eq_none.mp saved
    unfold Custody.Accounts ARQstate.held purged
    rw [empty]
    change _ + (0 : Multiset (Piece α)) + _ + {p.piece} + ({.copy p.data} + (0 + 0)) = 0 + ({p.piece} + 0) + (_ + {.copy p.data} + _)
    abel
  · cases done
    exact (ack_accounts config w).lose rfl

theorem goBackNMode_accounts (done : goBackNMode config p w = some w') :
    custody.Accounts (w.a.held config + {p.piece}) (goBackNModeEvents config p w) (w'.a.held config) := by
  unfold goBackNMode at done
  unfold goBackNModeEvents
  split_ifs at * with inOrder later rejected
  · have accepted := acceptInOrder_accounts done
    exact accepted
  · cases done
    exact Custody.Accounts.lose rfl (untouched_accounts rfl rfl rfl)
  · cases done
    exact Custody.Accounts.lose rfl (untouched_accounts rfl rfl rfl)
  · cases done
    exact (ack_accounts config w).lose rfl

theorem filterMap_update {β : Type*} (f : ℤ → Option β) {k m : ℕ} (below : k < m) (free : f k = none) (b : β) :
    ((List.range m).filterMap fun n : ℕ => Function.update f k (some b) n).Perm (b :: (List.range m).filterMap fun n : ℕ => f n) := by
  induction m with
  | zero => omega
  | succ m ih =>
    rw [List.range_succ, List.filterMap_append, List.filterMap_append]
    rcases Nat.lt_succ_iff_lt_or_eq.mp below with inside | rfl
    · have other : (m : ℤ) ≠ k := by omega
      have same : ([m].filterMap fun n : ℕ => Function.update f k (some b) n) = [m].filterMap fun n : ℕ => f n := by
        refine List.filterMap_congr fun n mem => ?_
        rw [List.mem_singleton.mp mem, Function.update_of_ne other]
      rw [same]
      exact (ih inside).append_right _
    · have before : ((List.range k).filterMap fun n : ℕ => Function.update f k (some b) n) = (List.range k).filterMap fun n : ℕ => f n := by
        refine List.filterMap_congr fun n mem => ?_
        have other : (n : ℤ) ≠ k := by have := List.mem_range.mp mem; omega
        rw [Function.update_of_ne other]
      rw [before]
      simp [free]

/-- A packet comes to an empty slot. -/
theorem held_insert (repeats : config.selRepeat = true) {s : ℤ} (free : a.seen (slot s) = none) (p : Packet α) :
    ({ a with seen := Function.update a.seen (slot s) (some p) } : ARQstate α).held config = a.held config + {p.piece} := by
  have low : 0 ≤ slot s := Int.emod_nonneg s (by decide)
  have high : slot s < mws := Int.emod_lt_of_pos s (by decide)
  obtain ⟨k, number⟩ := Int.eq_ofNat_of_zero_le low
  have below : k < mws.toNat := by omega
  unfold ARQstate.held purged
  rw [if_pos repeats, if_pos repeats]
  rw [number] at free ⊢
  have inserted := Multiset.coe_eq_coe.mpr ((filterMap_update a.seen below free p).map Packet.piece)
  rw [List.map_cons, ← Multiset.cons_coe] at inserted
  rw [inserted, ← Multiset.singleton_add]
  abel

/-- The packet of a slot is taken. -/
theorem held_take (repeats : config.selRepeat = true) {s : ℤ} (taken : a.seen (slot s) = some p) :
    ({ a with seen := Function.update a.seen (slot s) none } : ARQstate α).held config + {p.piece} = a.held config := by
  have empty : ({ a with seen := Function.update a.seen (slot s) none } : ARQstate α).seen (slot s) = none := Function.update_self ..
  rw [← held_insert repeats empty p]
  have restored : Function.update (Function.update a.seen (slot s) none) (slot s) (some p) = a.seen := by
    rw [Function.update_idem, ← taken, Function.update_eq_self]
  exact held_congr rfl rfl restored

theorem deliverFrom_accounts (repeats : config.selRepeat = true) (fuel : ℕ) (w : Work α) :
    custody.Accounts (w.a.held config) (deliverFromEvents fuel w) ((deliverFrom fuel w).a.held config) := by
  induction fuel generalizing w with
  | zero => exact .refl _
  | succ fuel ih =>
    rw [deliverFrom, deliverFromEvents]
    cases taken : w.a.seen (slot w.a.nextpkt) with
    | none => exact .refl _
    | some p =>
      have sent : custody.Accounts (w.a.held config) [.sendUp p.piece]
          (({ w.a with seen := Function.update w.a.seen (slot w.a.nextpkt) none } : ARQstate α).held config) := by
        rw [← held_take repeats taken]
        exact Custody.Accounts.lose rfl (.refl _)
      have onward := ih { w with
        a.seen := Function.update w.a.seen (slot w.a.nextpkt) none
        a.nextpkt := w.a.nextpkt + 1
        up := w.up ++ [p] }
      exact sent.trans onward

/-- The packet is put into its slot, where none was. -/
theorem selectiveRepeatMode_accounts (repeats : config.selRepeat = true)
    (room : p.sendSeqno > w.a.maxseen → w.a.seen (slot p.sendSeqno) = none ∧ p.sendSeqno ≥ w.a.nextpkt) :
    custody.Accounts (w.a.held config + {p.piece}) (selectiveRepeatModeEvents config p w) ((selectiveRepeatMode config p w).a.held config) := by
  have recorded : ∀ v : Work α, v.a.held config = w.a.held config + {p.piece} →
      custody.Accounts (w.a.held config + {p.piece}) (deliverFromEvents mws.toNat v ++ ackEvents config (deliverFrom mws.toNat v))
        ((ack config (deliverFrom mws.toNat v)).a.held config) := by
    intro v kept
    rw [← kept]
    exact (deliverFrom_accounts repeats mws.toNat v).trans (ack_accounts config _)
  unfold selectiveRepeatMode selectiveRepeatModeEvents
  dsimp only
  by_cases new : p.sendSeqno > w.a.maxseen
  · obtain ⟨free, right⟩ := room new
    have noted : noteMaxseen p w = { w with
        sent := w.sent ++ rejections (w.a.maxseen + 1) p.sendSeqno
        a.maxseen := p.sendSeqno
        a.seen := Function.update w.a.seen (slot p.sendSeqno) (some p) } := if_pos new
    rw [noted, if_neg (not_lt.mpr right), if_neg (not_lt.mpr right), if_pos le_rfl, if_pos le_rfl, if_neg fun both => both.2 new,
      if_neg fun both => both.2 new]
    refine recorded _ ?_
    rw [← held_insert repeats free p]
    exact held_congr rfl rfl (Function.update_idem ..)
  · have noted : noteMaxseen p w = w := if_neg new
    rw [noted]
    split_ifs with old inside known
    · exact (ack_accounts config w).lose rfl
    · exact (ack_accounts config w).lose rfl
    · have free : w.a.seen (slot p.sendSeqno) = none := Option.not_isSome_iff_eq_none.mp fun some => known ⟨some, new⟩
      exact recorded _ (held_insert repeats free p)
    · exact absurd (not_lt.mp new) inside

theorem receive_accounts (done : receive config p w = some w') (room : config.selRepeat = true → p.sendSeqno > w.a.maxseen →
    w.a.seen (slot p.sendSeqno) = none ∧ p.sendSeqno ≥ w.a.nextpkt) :
    custody.Accounts (w.a.held config + {p.piece}) (receiveEvents config p w) (w'.a.held config) := by
  unfold receive at done
  unfold receiveEvents
  split_ifs at * with repeats
  · cases done
    exact selectiveRepeatMode_accounts repeats (room repeats)
  · exact goBackNMode_accounts done

theorem readPiggyAck_window {rseq : ℤ} (done : readPiggyAck rseq w = some w') :
    w'.a.seen = w.a.seen ∧ w'.a.maxseen = w.a.maxseen ∧ w'.a.nextpkt = w.a.nextpkt := by
  unfold readPiggyAck handlePiggyAck at done
  dsimp only at done
  split_ifs at done
  · split at done
    · cases done
    · cases done
      exact ⟨rfl, rfl, rfl⟩
  · cases done
    exact ⟨rfl, rfl, rfl⟩
  · cases done
    exact ⟨rfl, rfl, rfl⟩

theorem recvIframe_accounts {rseq : ℤ} (done : recvIframe config rseq p w = some w') (connected : w.a.sabmeReq ≠ 1)
    (room : config.selRepeat = true → p.sendSeqno > w.a.maxseen → w.a.seen (slot p.sendSeqno) = none ∧ p.sendSeqno ≥ w.a.nextpkt) :
    custody.Accounts (w.a.held config + {p.piece}) (recvIframeEvents config rseq p w) (w'.a.held config) := by
  rw [recvIframe, if_neg connected] at done
  obtain ⟨acked, piggyback, later⟩ := Option.bind_eq_some_iff.mp done
  obtain ⟨received, mode, finish⟩ := Option.bind_eq_some_iff.mp later
  rw [recvIframeEvents, if_neg connected]
  dsimp only
  rw [piggyback]
  dsimp only
  rw [mode]
  dsimp only
  have started : custody.Accounts (w.a.held config)
      (readPiggyAckEvents rseq (if w.a.recvSeqno = -1 ∧ w.a.sabmeReq = 0 then { w with a.sabmeReq := 2 } else w)) (acked.a.held config) := by
    have answered : custody.Accounts (ARQstate.held config _) _ (acked.a.held config) := readPiggyAck_accounts piggyback
    split_ifs at answered ⊢ <;> exact answered
  have window : acked.a.seen = w.a.seen ∧ acked.a.maxseen = w.a.maxseen ∧ acked.a.nextpkt = w.a.nextpkt := by
    have kept := readPiggyAck_window piggyback
    split_ifs at kept <;> exact kept
  have taken : custody.Accounts (acked.a.held config + {p.piece})
      (receiveEvents config p (if p.sendSeqno = 0 ∧ acked.a.recvSeqno = -1 then { acked with a.recvSeqno := 0 } else acked))
      (received.a.held config) := by
    have handled := receive_accounts mode fun repeats new => by
      split_ifs at new ⊢ <;> exact window.1 ▸ window.2.2 ▸ room repeats (window.2.1 ▸ new)
    split_ifs at handled ⊢ <;> exact handled
  refine (started.frame {p.piece}).trans (taken.trans ?_)
  split_ifs at finish ⊢ with valid
  · exact sendMuch_accounts finish
  · cases finish
    exact .refl _

variable {q : Piece α} {k : ℤ}

theorem handleRR_accounts (done : handleRR config k w = some w') (connected : w.a.sabmeReq = 2) (new : k - 1 > w.a.highestAck) :
    custody.Accounts (w.a.held config + {q}) (handleRREvents config q k w) (w'.a.held config) := by
  rw [handleRR, if_neg (not_not.mpr connected)] at done
  rw [handleRREvents, if_neg (not_not.mpr connected)]
  dsimp only
  rw [if_pos new]
  exact (Custody.Accounts.lose rfl (receiveRR_accounts new)).trans (sendMuch_accounts done)

theorem handleREJ_accounts (done : handleREJ config k w = some w') (connected : w.a.sabmeReq = 2) :
    custody.Accounts (w.a.held config + {q}) (handleREJEvents config q k w) (w'.a.held config) := by
  rw [handleREJ, if_neg (not_not.mpr connected)] at done
  rw [handleREJEvents, if_neg (not_not.mpr connected)]
  exact Custody.Accounts.lose rfl (sendMuch_accounts done)

theorem handleSREJ_accounts (done : handleSREJ config k w = some w') (connected : w.a.sabmeReq = 2) :
    custody.Accounts (w.a.held config + {q}) (handleSREJEvents q w) (w'.a.held config) := by
  rw [handleSREJ, if_neg (not_not.mpr connected)] at done
  obtain ⟨p, -, rfl⟩ := Option.map_eq_some_iff.mp done
  rw [handleSREJEvents, if_neg (not_not.mpr connected)]
  exact Custody.Accounts.lose rfl (freeSave_accounts rfl rfl rfl)

theorem purgeFrom_perm (fuel : ℕ) (buffer : List (Packet α)) (n : ℤ)
    (numbers : (buffer.map Packet.sendSeqno).Perm ((List.range fuel).map fun i : ℕ => n + i)) : (purgeFrom fuel buffer n).Perm buffer := by
  induction fuel generalizing buffer n with
  | zero =>
    have empty : buffer = [] := List.map_eq_nil_iff.mp (List.perm_nil.mp numbers)
    rw [empty, purgeFrom]
  | succ fuel ih =>
    have shifted : ((List.range (fuel + 1)).map fun i : ℕ => n + i) = n :: (List.range fuel).map fun i : ℕ => n + 1 + i := by
      rw [List.range_succ_eq_map, List.map_cons, List.map_map]
      simp only [Nat.cast_zero, add_zero, List.cons.injEq, true_and]
      exact List.map_congr_left fun i _ => by simp only [Function.comp_apply, Nat.cast_succ]; omega
    rw [shifted] at numbers
    obtain ⟨r, mem, number⟩ := List.mem_map.mp (numbers.mem_iff.mpr List.mem_cons_self)
    obtain ⟨p, found⟩ := Option.isSome_iff_exists.mp (getPkt_isSome.mpr ⟨r, mem, number⟩)
    have split := perm_cons_remove found
    have rest : ((remove buffer n).map Packet.sendSeqno).Perm ((List.range fuel).map fun i : ℕ => n + 1 + i) := by
      have whole := (split.map Packet.sendSeqno).symm.trans numbers
      rw [List.map_cons, (getPkt_eq_some found).2] at whole
      exact whole.cons_inv
    rw [purgeFrom, found]
    exact ((ih _ _ rest).cons p).trans split.symm

/-- A reset leaves nothing. -/
theorem reset_accounts (purgeable : Purgeable a) : custody.Accounts (a.held config) (resetEvents config a) 0 := by
  have all := Multiset.coe_eq_coe.mpr ((purgeFrom_perm a.sendBuf.length a.sendBuf (a.highestAck + 1) purgeable).map Packet.piece)
  unfold Custody.Accounts resetEvents ARQstate.held freeSave
  simp only [Custody.gained_append, Custody.lost_append]
  rw [Custody.lost_map (g := Packet.piece) fun _ => rfl, Custody.lost_map (g := Packet.piece) fun _ => rfl,
    Custody.lost_map (g := fun p : Packet α => .copy p.data) fun _ => rfl, Custody.gained_map fun _ => rfl, Custody.gained_map fun _ => rfl,
    Custody.gained_map fun _ => rfl, all]
  abel

theorem held_newEntry_empty (config : Config) (unset : ℤ) : (newEntry unset : ARQstate α).held config = 0 := by
  unfold ARQstate.held purged newEntry
  simp

theorem Connection.held_getD (config : Config) (unset : ℤ) (c : Connection α) : (c.state.getD (newEntry unset)).held config = c.held config := by
  unfold Connection.held
  cases c.state with
  | none => exact held_newEntry_empty config unset
  | some a => rfl

theorem connect_held (config : Config) (w : Work α) : (connect w).a.held config = w.a.held config := by
  unfold connect
  split_ifs <;> rfl

theorem inSendBuffer_accounts (config : Config) (data : α) (w : Work α) :
    custody.Accounts (w.a.held config + {.frame data}) (inSendBufferEvents config data w) ((inSendBuffer config data w).a.held config) := by
  unfold inSendBuffer inSendBufferEvents
  split_ifs
  · exact Custody.Accounts.lose rfl (.refl _)
  · have appended : (((w.a.sendBuf ++ [(⟨w.a.seqno, data⟩ : Packet α)]).map Packet.piece : List (Piece α)) : Multiset (Piece α)) =
        (w.a.sendBuf.map Packet.piece : List (Piece α)) + {.frame data} := by
      rw [List.map_append, ← Multiset.coe_add]
      rfl
    unfold Custody.Accounts ARQstate.held purged
    rw [appended]
    simp only [Custody.gained_nil, Custody.lost_nil]
    abel

variable {c : Connection α} {next : Connection α × Output α} {name : α}

theorem recvOutgoing_accounts {unset : ℤ} {data : α} (taken : recvOutgoing config unset data c = some next) :
    custody.Accounts (c.held config + {.frame data}) (recvOutgoingEvents config unset data c) (next.1.held config) := by
  unfold recvOutgoing at taken
  unfold recvOutgoingEvents
  dsimp only at *
  have stored := inSendBuffer_accounts config data (connect { a := c.state.getD (newEntry unset), maxTimeouts := c.maxTimeouts })
  rw [connect_held, c.held_getD] at stored
  split_ifs at taken ⊢
  · obtain ⟨w, done, rfl⟩ := Option.map_eq_some_iff.mp taken
    exact stored.trans (sendMuch_accounts done)
  · cases taken
    exact stored.trans (.refl _)

/-- A reset of the state, if there is one. -/
theorem resets_accounts (purgeable : ∀ a, c.state = some a → Purgeable a) :
    custody.Accounts (c.held config) (c.state.toList.flatMap (resetEvents config)) 0 := by
  unfold Connection.held
  cases known : c.state with
  | none => exact .refl _
  | some a => simpa using reset_accounts (purgeable a known)

theorem handleSABMErequest_accounts (unset : ℤ) (purgeable : ∀ a, c.state = some a → Purgeable a) :
    custody.Accounts (c.held config + {q}) (handleSABMErequestEvents config q c) ((handleSABMErequest config unset c).1.held config) := by
  have fresh : (handleSABMErequest config unset c).1.held config = 0 := by
    unfold handleSABMErequest
    cases c.state <;> exact held_newEntry_empty config unset
  rw [fresh]
  exact Custody.Accounts.lose rfl (resets_accounts purgeable)

theorem handleDISC_accounts (taken : handleDISC config c = some next) (purgeable : ∀ a, c.state = some a → Purgeable a) :
    custody.Accounts (c.held config + {q}) (handleDISCEvents config q c) (next.1.held config) := by
  obtain ⟨a, -, rfl⟩ := Option.map_eq_some_iff.mp taken
  exact Custody.Accounts.lose rfl (resets_accounts purgeable)

theorem handleUA_accounts (taken : handleUA config w = some next)
    (purgeable : w.a.disconnect = true → ¬(w.a.tSeqno = 0 ∧ w.a.sabmeReq = 1) → Purgeable w.a) :
    custody.Accounts (w.a.held config + {q}) (handleUAEvents config q w) (next.1.held config) := by
  unfold handleUA at taken
  unfold handleUAEvents
  split_ifs at taken ⊢ with first leaving
  · obtain ⟨w', done, rfl⟩ := Option.map_eq_some_iff.mp taken
    exact Custody.Accounts.lose rfl (sendMuch_accounts done)
  · cases taken
    exact Custody.Accounts.lose rfl (reset_accounts (purgeable leaving first))
  · cases taken
    exact Custody.Accounts.lose rfl (.refl _)

theorem recvSframe_accounts {stype : SS} (done : recvSframe config k stype w = some w') (connected : w.a.sabmeReq = 2)
    (new : stype = .rr → k - 1 > w.a.highestAck) (ready : stype ≠ .rnr) :
    custody.Accounts (w.a.held config + {q}) (recvSframeEvents config q k stype w) (w'.a.held config) := by
  cases stype with
  | rr => exact handleRR_accounts done connected (new rfl)
  | rej => exact handleREJ_accounts done connected
  | rnr => exact absurd rfl ready
  | srej => exact handleSREJ_accounts done connected

theorem recvIncoming_accounts {unset : ℤ} {error : Bool} {frame : Frame α} (taken : recvIncoming config unset error frame c = some next)
    (clean : error = true ∨ DisposesOf config c frame) :
    custody.Accounts (c.held config + {frame.piece name}) (recvIncomingEvents config (frame.piece name) error frame c) (next.1.held config) := by
  unfold recvIncoming at taken
  unfold recvIncomingEvents
  split_ifs at taken ⊢ with damaged
  · cases taken
    exact Custody.Accounts.lose rfl (.refl _)
  have disposes := clean.resolve_left damaged
  cases frame with
  | i rseq p =>
    obtain ⟨a, known, connected, room⟩ := disposes
    unfold withState at taken
    unfold withStateEvents Connection.held
    rw [known] at taken ⊢
    obtain ⟨w', done, rfl⟩ := Option.map_eq_some_iff.mp taken
    have handled := recvIframe_accounts done connected room
    exact handled
  | s recvSeqno stype =>
    obtain ⟨a, known, connected, new, ready⟩ : ∃ a, c.state = some a ∧ a.sabmeReq = 2 ∧ (stype = .rr → recvSeqno - 1 > a.highestAck) ∧ stype ≠ .rnr := by
      cases stype with
      | rr =>
        obtain ⟨a, known, connected, new⟩ := disposes
        exact ⟨a, known, connected, fun _ => new, by decide⟩
      | rej =>
        obtain ⟨a, known, connected⟩ := disposes
        exact ⟨a, known, connected, by rintro ⟨⟩, by decide⟩
      | rnr => exact disposes.elim
      | srej =>
        obtain ⟨a, known, connected⟩ := disposes
        exact ⟨a, known, connected, by rintro ⟨⟩, by decide⟩
    unfold withState at taken
    unfold withStateEvents Connection.held
    rw [known] at taken ⊢
    obtain ⟨w', done, rfl⟩ := Option.map_eq_some_iff.mp taken
    have handled := recvSframe_accounts (q := (Frame.s recvSeqno stype).piece name) done connected new ready
    exact handled
  | u utype =>
    cases utype with
    | sabme =>
      cases taken
      exact handleSABMErequest_accounts unset disposes
    | ua =>
      obtain ⟨a, known, purgeable⟩ := disposes
      unfold withState at taken
      unfold withStateEvents Connection.held
      rw [known] at taken ⊢
      have handled := handleUA_accounts (q := (Frame.u .ua).piece name) taken purgeable
      exact handled
    | disc => exact handleDISC_accounts taken disposes
    | snrm => cases taken
    | snrme => cases taken
    | sarm => cases taken
    | sarme => cases taken
    | sabm => cases taken
    | dm => cases taken

theorem timeout_accounts (taken : timeout config w = some next) (purgeable : w.a.ntimeouts + 1 > w.maxTimeouts → Purgeable w.a) :
    custody.Accounts (w.a.held config) (timeoutEvents config w) (next.1.held config) := by
  unfold timeout at taken
  unfold timeoutEvents
  dsimp only at *
  split_ifs at taken ⊢ with last first idle
  · cases taken
    exact reset_accounts (purgeable last)
  · obtain ⟨p, -, rfl⟩ := Option.map_eq_some_iff.mp taken
    exact untouched_accounts rfl rfl rfl
  · cases taken
    exact untouched_accounts rfl rfl rfl
  · obtain ⟨w', done, rfl⟩ := Option.map_eq_some_iff.mp taken
    have sent := sendMuch_accounts done
    exact sent

theorem expire_accounts {timer : Timer} (taken : expire config timer w = some next) (clean : ExpiresClean config ⟨some w.a, w.maxTimeouts⟩ timer) :
    custody.Accounts (w.a.held config) (expireEvents config timer w) (next.1.held config) := by
  cases timer with
  | rtx =>
    simp only [expire] at taken
    split_ifs at taken
    have handled := timeout_accounts taken (clean w.a rfl)
    exact handled
  | reset =>
    simp only [expire] at taken
    split_ifs at taken
    cases taken
    have emptied : custody.Accounts (w.a.held config) (resetEvents config w.a) 0 := reset_accounts (clean w.a rfl)
    exact emptied
  | delay =>
    simp only [expire] at taken
    split_ifs at taken
    cases taken
    have handled := delayTimeout_accounts (w := { w with a.delayPending := false }) (clean w.a rfl)
    exact handled

/-- A clean call accounts for its packet and for what was kept. -/
theorem Connection.step_accounts {input : Input α} (taken : c.step config input = some next) (clean : Clean config c input) (name : α) :
    custody.Accounts (c.held config) (c.events config name input) (next.1.held config) := by
  cases input with
  | outgoing unset data => exact Custody.Accounts.gain rfl (recvOutgoing_accounts taken)
  | incoming unset error frame => exact Custody.Accounts.gain rfl (recvIncoming_accounts taken clean)
  | expire timer =>
    obtain ⟨a, known, taken⟩ := Option.bind_eq_some_iff.mp taken
    obtain ⟨state, maxTimeouts⟩ := c
    cases known
    have handled := expire_accounts taken clean
    exact handled

/-- The log is kept beside the station: its states are those of `machine`. -/
theorem custody_states (config : Config) (station : Station α) (calls : List (ℤ × α × Input α)) :
    ((custodyMachine config).run station calls).map Prod.fst =
      ((machine config).run station (calls.map fun call => (call.1, call.2.2))).map Prod.fst := by
  induction calls generalizing station with
  | nil => rfl
  | cons call calls ih =>
    rw [List.map_cons]
    cases stepped : Connection.step config (station.connection call.1) call.2.2 with
    | none =>
      simp only [Machine.run, custodyMachine, machine, stepped]
      rfl
    | some reached =>
      have taken : (custodyMachine config).step station call = some (⟨Function.update station.states call.1 reached.1.state, reached.1.maxTimeouts⟩,
          call.1, (station.connection call.1).events config call.2.1 call.2.2) := by
        simp only [custodyMachine, stepped]
        rfl
      have known : (machine config).step station (call.1, call.2.2) =
          some (⟨Function.update station.states call.1 reached.1.state, reached.1.maxTimeouts⟩, call.1, reached.2) := by
        simp only [machine, stepped]
        rfl
      rw [Machine.run_cons taken, Machine.run_cons known, Option.map_map, Option.map_map]
      exact ih _

/-- The events of a run at one hop. -/
def eventsAt (hop : ℤ) (out : ℤ × List (Event α)) : List (Event α) := if out.1 = hop then out.2 else []

/-- In a run of clean calls every packet that came in is disposed of once, or kept. -/
theorem run_accounts {calls : List (ℤ × α × Input α)} {station last : Station α} {outs : List (ℤ × List (Event α))}
    (clean : (custodyMachine config).Along (fun s call => Clean config (s.connection call.1) call.2.2) station calls)
    (run : (custodyMachine config).run station calls = some (last, outs)) (hop : ℤ) :
    custody.Accounts ((station.connection hop).held config) (outs.flatMap (eventsAt hop)) ((last.connection hop).held config) := by
  refine Custody.Accounts.run (fun s => (s.connection hop).held config) (eventsAt hop) (fun s call next out clean taken => ?_) clean run
  obtain ⟨⟨reached, output⟩, stepped, same⟩ := Option.map_eq_some_iff.mp taken
  cases same
  unfold eventsAt
  by_cases here : call.1 = hop
  · subst here
    have accounted := Connection.step_accounts stepped clean call.2.1
    simpa [Station.connection, Connection.held] using accounted
  · have elsewhere : hop ≠ call.1 := fun same => here same.symm
    simpa [here, Station.connection, Connection.held, Function.update_of_ne elsewhere] using Custody.Accounts.refl _

/-- In a run of clean calls every packet that comes in once is disposed of once and not kept, or kept once and not disposed of. -/
theorem run_disposes_once [DecidableEq α] {calls : List (ℤ × α × Input α)} {station last : Station α} {outs : List (ℤ × List (Event α))}
    (clean : (custodyMachine config).Along (fun s call => Clean config (s.connection call.1) call.2.2) station calls)
    (run : (custodyMachine config).run station calls = some (last, outs)) (hop : ℤ) :
    custody.Accounts ((station.connection hop).held config) (outs.flatMap (eventsAt hop)) ((last.connection hop).held config) ∧
      ∀ piece, ((station.connection hop).held config).count piece = 0 → (custody.gained (outs.flatMap (eventsAt hop))).count piece = 1 →
        (custody.lost (outs.flatMap (eventsAt hop))).count piece = 1 ∧ ((last.connection hop).held config).count piece = 0 ∨
          (custody.lost (outs.flatMap (eventsAt hop))).count piece = 0 ∧ ((last.connection hop).held config).count piece = 1 :=
  have accounts := run_accounts clean run hop
  ⟨accounts, fun _ fresh single => accounts.once fresh single⟩

/-- A packet is sent, and its acknowledgement comes. -/
def acknowledgedOnce : List (ℤ × ℕ × Input ℕ) :=
  [(1, 0, .outgoing 0 7), (1, 100, .incoming 0 false (.u .ua)), (1, 101, .incoming 0 false (.s 1 .rr))]

theorem acknowledgedOnce_clean : (custodyMachine ⟨8, 1000, false, false⟩).Along
    (fun s call => Clean ⟨8, 1000, false, false⟩ (s.connection call.1) call.2.2) (Station.initial 2) acknowledgedOnce := by
  refine ⟨trivial, .inr ⟨_, rfl, ?_⟩, .inr ⟨_, rfl, rfl, ?_⟩, trivial⟩
  · rintro ⟨⟩
  · decide

theorem run_disposes_once_sample : ∃ last outs,
    (custodyMachine ⟨8, 1000, false, false⟩).run (Station.initial 2) acknowledgedOnce = some (last, outs) ∧
      ((custody.lost (outs.flatMap (eventsAt 1))).count (.frame 7) = 1 ∧ ((last.connection 1).held ⟨8, 1000, false, false⟩).count (.frame 7) = 0 ∨
        (custody.lost (outs.flatMap (eventsAt 1))).count (.frame 7) = 0 ∧ ((last.connection 1).held ⟨8, 1000, false, false⟩).count (.frame 7) = 1) :=
  ⟨_, _, rfl, (run_disposes_once acknowledgedOnce_clean rfl 1).2 (.frame 7) (by decide) (by decide)⟩

/-- A second acknowledgement of the same number is dropped and freed. -/
theorem duplicate_freed_twice : ∃ last outs,
    (custodyMachine ⟨8, 1000, false, false⟩).run (Station.initial 2) (acknowledgedOnce ++ [(1, 102, .incoming 0 false (.s 1 .rr))]) =
        some (last, outs) ∧
      (custody.gained (outs.flatMap (eventsAt 1))).count (.frame 102) = 1 ∧ (custody.lost (outs.flatMap (eventsAt 1))).count (.frame 102) = 2 :=
  ⟨_, _, rfl, by decide, by decide⟩

end HDLC

end Ns2
