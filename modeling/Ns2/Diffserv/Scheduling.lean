import Mathlib.Algebra.BigOperators.Intervals
import Mathlib.Algebra.BigOperators.Ring.Finset
import Mathlib.Algebra.Order.BigOperators.Group.Finset
import Mathlib.Data.Nat.Count
import Ns2.Diffserv.DsRed

namespace Ns2

namespace DsREDQueue

/-- What the schedulers of the router work on, apart from the packets. -/
structure Turn where
  numQueues : ℕ
  schedMode : SchedMode
  queueWeight : ℕ → ℤ
  qToDq : ℕ
  wirrTemp : ℕ → ℤ
  wirrqDone : ℕ → Bool
  queuesDone : ℕ

def turn (s : DsREDQueue) : Turn := ⟨s.numQueues, s.schedMode, s.queueWeight, s.qToDq, s.wirrTemp, s.wirrqDone, s.queuesDone⟩

variable {s t : DsREDQueue} {now u : ℚ} {pkt : DsPacket} {n q i : ℕ}

theorem enque_turn {verdict : Verdict} (taken : s.enque now u pkt = some (t, verdict)) : t.turn = s.turn ∧ t.pktcount = s.pktcount := by
  obtain ⟨⟨q, prec⟩, _, rest⟩ := Option.bind_eq_some_iff.mp taken
  dsimp only at rest
  generalize (s.redq q).enque now u pkt prec (s.ecn && pkt.ect) = result at rest
  obtain ⟨r, verdict'⟩ := result
  cases verdict' <;> cases rest <;> exact ⟨rfl, rfl⟩

theorem Sent.turn (sent : Sent s t now pkt) : t.turn = s.turn := by
  obtain ⟨numQueues, _, schedMode, queueWeight, _⟩ := sent.kept
  obtain ⟨qToDq, wirrTemp, wirrqDone, queuesDone⟩ := sent.scheduler
  simp only [DsREDQueue.turn, numQueues, schedMode, queueWeight, qToDq, wirrTemp, wirrqDone, queuesDone]

theorem deque_turn {answer : Option DsPacket} (taken : s.deque now = some (t, answer)) : t.turn = s.selectQueueToDeque.turn := by
  rcases deque_cases taken with ⟨_, rfl, _⟩ | ⟨pkt, _, sent⟩
  · rfl
  · exact sent.turn

/-- Each queue is reached from each other one within a whole turn. -/
theorem exists_turns {r : ℕ} (low : q < n) (inUse : r < n) : ∃ k < n, (q + k) % n = r := by
  refine ⟨(r + (n - q)) % n, Nat.mod_lt _ (by omega), ?_⟩
  rw [Nat.add_mod_mod, show q + (r + (n - q)) = r + n by omega, Nat.add_mod_right, Nat.mod_eq_of_lt inUse]

theorem turns_succ (q k n : ℕ) : ((q + 1) % n + k) % n = (q + (k + 1)) % n := by
  rw [Nat.mod_add_mod, Nat.add_right_comm, Nat.add_assoc]

theorem skipEmpty_congr (redq : t.redq = s.redq) (numQueues : t.numQueues = s.numQueues) (m q : ℕ) : t.skipEmpty m q = s.skipEmpty m q := by
  induction m generalizing q with
  | zero => rfl
  | succ m ih => rw [skipEmpty, skipEmpty, length, redq, next, numQueues, ih, length, next]

theorem skipEmpty_lt (m : ℕ) (low : q < s.numQueues) : s.skipEmpty m q < s.numQueues := by
  induction m generalizing q with
  | zero => exact low
  | succ m ih =>
    rw [skipEmpty]
    split_ifs
    · exact ih (Nat.mod_lt _ (by omega))
    · exact low

theorem skipEmpty_finds (m : ℕ) (low : q < s.numQueues) (found : ∃ k < m, s.length ((q + k) % s.numQueues) ≠ 0) :
    s.length (s.skipEmpty m q) ≠ 0 := by
  induction m generalizing q with
  | zero => simp at found
  | succ m ih =>
    obtain ⟨k, early, filled⟩ := found
    rw [skipEmpty]
    split_ifs with empty
    · cases k with
      | zero =>
        rw [Nat.add_zero, Nat.mod_eq_of_lt low] at filled
        exact absurd empty filled
      | succ k =>
        refine ih (Nat.mod_lt _ (by omega)) ⟨k, by omega, ?_⟩
        rwa [next, turns_succ]
    · exact empty

/-- Some physical queue holds a packet. -/
def Busy (s : DsREDQueue) : Prop := ∃ q < s.numQueues, s.length q ≠ 0

theorem Busy.skipEmpty (busy : s.Busy) (low : q < s.numQueues) : s.length (s.skipEmpty s.numQueues q) ≠ 0 := by
  obtain ⟨r, inUse, filled⟩ := busy
  obtain ⟨k, early, rfl⟩ := exists_turns low inUse
  exact skipEmpty_finds _ low ⟨k, early, filled⟩

/-- An empty queue loses the rest of its share to the next one. -/
def leaveWRR (s : DsREDQueue) : DsREDQueue := { s with wirrTemp := Function.update s.wirrTemp s.qToDq 0 }.nextWRR

theorem skipWRR_succ (m : ℕ) (s : DsREDQueue) : skipWRR (m + 1) s = if s.length s.qToDq = 0 then skipWRR m s.leaveWRR else s := rfl

/-- The loop of the weighted round robin stops where that of the plain one does, and fills the share of a queue it moves on to. -/
theorem skipWRR_spec (m : ℕ) (s : DsREDQueue) : (skipWRR m s).qToDq = s.skipEmpty m s.qToDq ∧
    (skipWRR m s = s ∨ (skipWRR m s).wirrTemp (skipWRR m s).qToDq = s.queueWeight (skipWRR m s).qToDq - 1) := by
  induction m generalizing s with
  | zero => exact ⟨rfl, Or.inl rfl⟩
  | succ m ih =>
    rw [skipWRR_succ, skipEmpty]
    split_ifs with empty
    · obtain ⟨place, share⟩ := ih s.leaveWRR
      refine ⟨place.trans (skipEmpty_congr (s := s) (t := s.leaveWRR) rfl rfl m _), Or.inr ?_⟩
      rcases share with same | share
      · rw [same]
        exact Function.update_self ..
      · exact share
    · exact ⟨rfl, Or.inl rfl⟩

/-- The first step of the weighted round robin: the next of the share of a queue, or the first of that of the next one. -/
def stepWRR (s : DsREDQueue) : DsREDQueue :=
  if s.wirrTemp s.qToDq ≤ 0 then s.nextWRR
  else { s with wirrTemp := Function.update s.wirrTemp s.qToDq (s.wirrTemp s.qToDq - 1) }

theorem selectWRR_eq (s : DsREDQueue) : s.selectWRR = skipWRR s.stepWRR.numQueues s.stepWRR := rfl

theorem scheduled_stepWRR (s : DsREDQueue) : Scheduled s s.stepWRR := by
  unfold stepWRR
  split_ifs <;> exact ⟨rfl, rfl, rfl, rfl, rfl, rfl⟩

/-- Between two calls. With weighted round robin the queue in line has less than its whole share left. -/
structure Turn.Ready (r : Turn) : Prop where
  inUse : r.qToDq < r.numQueues
  weights : ∀ i < r.numQueues, 1 ≤ r.queueWeight i
  share : r.schedMode = .WRR → 0 ≤ r.wirrTemp r.qToDq ∧ r.wirrTemp r.qToDq < r.queueWeight r.qToDq

theorem Turn.Ready.stepWRR (ready : s.turn.Ready) (mode : s.schedMode = .WRR) : s.stepWRR.turn.Ready := by
  have inUse : s.qToDq < s.numQueues := ready.inUse
  obtain ⟨low, high⟩ : 0 ≤ s.wirrTemp s.qToDq ∧ s.wirrTemp s.qToDq < s.queueWeight s.qToDq := ready.share mode
  have onward : s.next s.qToDq < s.numQueues := Nat.mod_lt _ (by omega)
  unfold DsREDQueue.stepWRR
  split_ifs with spent
  · refine ⟨onward, ready.weights, fun _ => ?_⟩
    have filled : s.nextWRR.wirrTemp s.nextWRR.qToDq = s.queueWeight (s.next s.qToDq) - 1 := Function.update_self ..
    have weight : 1 ≤ s.queueWeight (s.next s.qToDq) := ready.weights _ onward
    show 0 ≤ s.nextWRR.wirrTemp s.nextWRR.qToDq ∧ s.nextWRR.wirrTemp s.nextWRR.qToDq < s.queueWeight (s.next s.qToDq)
    omega
  · refine ⟨inUse, ready.weights, fun _ => ?_⟩
    dsimp only [turn]
    rw [Function.update_self]
    omega

theorem Turn.Ready.selectWRR (ready : s.turn.Ready) (mode : s.schedMode = .WRR) : s.selectWRR.turn.Ready := by
  have stepped := ready.stepWRR mode
  have same := (scheduled_skipWRR s.stepWRR.numQueues s.stepWRR)
  obtain ⟨place, share⟩ := skipWRR_spec s.stepWRR.numQueues s.stepWRR
  rw [selectWRR_eq]
  rcases share with unmoved | share
  · rw [unmoved]
    exact stepped
  · have inUse : (skipWRR s.stepWRR.numQueues s.stepWRR).qToDq < s.stepWRR.numQueues := place ▸ skipEmpty_lt _ stepped.inUse
    have weight : 1 ≤ s.stepWRR.queueWeight (skipWRR s.stepWRR.numQueues s.stepWRR).qToDq := stepped.weights _ inUse
    refine ⟨?_, ?_, fun _ => ?_⟩
    · exact inUse.trans_eq same.numQueues.symm
    · dsimp only [turn]
      rw [same.numQueues, same.queueWeight]
      exact stepped.weights
    · dsimp only [turn]
      rw [share, same.queueWeight]
      omega

/-- What the loop of the interleaved round robin comes to in at most `m` turns: to a queue that is not done, or it has passed all of them. -/
structure Skipped (s t : DsREDQueue) (m : ℕ) : Prop where
  inUse : t.qToDq < s.numQueues
  kept : ∀ i, s.wirrqDone i = true → t.wirrqDone i = true
  found : s.length t.qToDq ≠ 0 ∧ t.wirrqDone t.qToDq = false ∨
    t.qToDq = (s.qToDq + m) % s.numQueues ∧
      ∀ j < m, (s.length ((s.qToDq + j) % s.numQueues) = 0 ∨ s.wirrqDone ((s.qToDq + j) % s.numQueues) = true) ∧
        t.wirrqDone ((s.qToDq + j) % s.numQueues) = true

/-- The queue in line is passed, and is done. -/
def passBy (s : DsREDQueue) : DsREDQueue :=
  let s := if s.wirrqDone s.qToDq then s else s.setDone s.qToDq
  { s with qToDq := s.next s.qToDq }

theorem passBy_done (s : DsREDQueue) : s.passBy.wirrqDone = Function.update s.wirrqDone s.qToDq true := by
  unfold passBy
  dsimp only
  split_ifs with done
  · exact (Function.update_eq_self_iff.mpr done.symm).symm
  · rfl

theorem passBy_rest (s : DsREDQueue) : s.passBy.redq = s.redq ∧ s.passBy.numQueues = s.numQueues ∧ s.passBy.qToDq = s.next s.qToDq ∧
    s.passBy.wirrTemp = s.wirrTemp := by
  unfold passBy
  dsimp only
  split_ifs <;> exact ⟨rfl, rfl, rfl, rfl⟩

theorem skipWIRR_succ (m : ℕ) (s : DsREDQueue) : skipWIRR (m + 1) s =
    if s.length s.qToDq = 0 ∨ s.wirrqDone s.qToDq then skipWIRR m s.passBy else s := rfl

theorem skipped_skipWIRR (m : ℕ) (low : s.qToDq < s.numQueues) : Skipped s (skipWIRR m s) m := by
  induction m generalizing s with
  | zero => exact ⟨low, fun _ => id, Or.inr ⟨(Nat.mod_eq_of_lt low).symm, fun j early => absurd early (Nat.not_lt_zero j)⟩⟩
  | succ m ih =>
    rw [skipWIRR_succ]
    split_ifs with passed
    · obtain ⟨redq, numQueues, onward, _⟩ := s.passBy_rest
      have done := s.passBy_done
      obtain ⟨inUse, kept, found⟩ := ih (s := s.passBy) (by rw [numQueues, onward]; exact Nat.mod_lt _ (by omega))
      simp only [length, redq, numQueues, onward, next, turns_succ] at inUse found
      have own : (skipWIRR m s.passBy).wirrqDone s.qToDq = true := kept _ (by rw [done, Function.update_self])
      refine ⟨inUse, fun i old => kept i ?_, found.imp_right fun ⟨place, all⟩ => ⟨place, fun j early => ?_⟩⟩
      · rw [done, Function.update_apply]
        split_ifs
        · rfl
        · exact old
      · by_cases here : (s.qToDq + j) % s.numQueues = s.qToDq
        · rw [here]
          exact ⟨passed, own⟩
        · cases j with
          | zero => exact absurd (Nat.mod_eq_of_lt low) here
          | succ j =>
            obtain ⟨reason, later⟩ := all j (by omega)
            rw [done, Function.update_of_ne here] at reason
            exact ⟨reason, later⟩
    · obtain ⟨filled, fresh⟩ := not_or.mp passed
      exact ⟨low, fun _ => id, Or.inl ⟨filled, Bool.eq_false_of_not_eq_true fresh⟩⟩

theorem takeShare_qToDq (s : DsREDQueue) : s.takeShare.qToDq = s.qToDq := by
  unfold takeShare
  dsimp only
  split_ifs <;> rfl

theorem refill_qToDq (s : DsREDQueue) : s.refill.qToDq = s.qToDq := by
  unfold refill
  split_ifs <;> rfl

/-- Where the interleaved round robin starts to look. -/
def turned (s : DsREDQueue) : DsREDQueue := { s with qToDq := s.next s.qToDq }

theorem selectWIRR_qToDq (s : DsREDQueue) : s.selectWIRR.qToDq = (skipWIRR s.numQueues s.turned).qToDq :=
  (refill_qToDq _).trans (takeShare_qToDq _)

theorem select_lt (inUse : s.qToDq < s.numQueues) (ready : s.turn.Ready) : s.selectQueueToDeque.qToDq < s.numQueues := by
  have onward : s.next s.qToDq < s.numQueues := Nat.mod_lt _ (by omega)
  unfold selectQueueToDeque
  split
  · exact skipEmpty_lt _ onward
  · rename_i mode
    exact (ready.selectWRR mode).inUse.trans_eq (scheduled_selectWRR s).numQueues
  · rw [selectWIRR_qToDq]
    exact (skipped_skipWIRR _ onward).inUse
  · unfold selectPRI
    split
    · rename_i i found
      exact List.mem_range.mp (List.mem_of_find?_eq_some found)
    · exact skipEmpty_lt _ (by omega)

theorem Turn.Ready.select (ready : s.turn.Ready) : s.selectQueueToDeque.turn.Ready := by
  have same := scheduled_select s
  by_cases mode : s.schedMode = .WRR
  · have chosen : s.selectQueueToDeque = s.selectWRR := by rw [selectQueueToDeque, mode]
    rw [chosen]
    exact ready.selectWRR mode
  · refine ⟨?_, ?_, fun wrr => absurd (same.schedMode.symm.trans wrr) mode⟩
    · exact (select_lt ready.inUse ready).trans_eq same.numQueues.symm
    · dsimp only [turn]
      rw [same.numQueues, same.queueWeight]
      exact ready.weights

/-- A packet is sent when there is one. -/
def Returns (s : DsREDQueue) : DsCall → Prop
  | .enque .. => True
  | .deque now => s.Busy → ∀ t, s.deque now ≠ some (t, none)

/-- With interleaved round robin a queue with packets is not done, or is the next one in line. -/
def InTurn (s : DsREDQueue) : DsCall → Prop
  | .enque .. => True
  | .deque _ => s.schedMode = .WIRR → s.Busy →
    (∃ q < s.numQueues, s.length q ≠ 0 ∧ s.wirrqDone q = false) ∨ s.length (s.next s.qToDq) ≠ 0

theorem selectWIRR_filled (low : s.qToDq < s.numQueues) : s.length s.selectWIRR.qToDq ≠ 0 ↔
    (∃ q < s.numQueues, s.length q ≠ 0 ∧ s.wirrqDone q = false) ∨ s.length (s.next s.qToDq) ≠ 0 := by
  have onward : s.next s.qToDq < s.numQueues := Nat.mod_lt _ (by omega)
  obtain ⟨inUse, kept, found⟩ := skipped_skipWIRR s.numQueues (s := s.turned) onward
  rw [selectWIRR_qToDq]
  rcases found with ⟨filled, fresh⟩ | ⟨place, all⟩
  · refine iff_of_true filled (Or.inl ⟨_, inUse, filled, ?_⟩)
    by_contra done
    exact Bool.false_ne_true (fresh.symm.trans (kept _ (Bool.eq_true_of_not_eq_false done)))
  · have back : (skipWIRR s.numQueues s.turned).qToDq = s.next s.qToDq := place.trans ((Nat.add_mod_right ..).trans (Nat.mod_eq_of_lt onward))
    rw [back]
    refine (or_iff_right ?_).symm
    rintro ⟨q, low, filled, fresh⟩
    obtain ⟨k, early, rfl⟩ := exists_turns (q := s.turned.qToDq) onward low
    rcases (all k early).1 with empty | done
    · exact filled empty
    · exact Bool.false_ne_true (fresh.symm.trans done)

theorem selectPRI_filled (busy : s.Busy) : s.length s.selectPRI.qToDq ≠ 0 := by
  unfold selectPRI
  split
  · rename_i i found
    have chosen := List.find?_some found
    rw [decide_eq_true_eq] at chosen
    exact fun empty => chosen (Or.inl empty)
  · obtain ⟨q, low, _⟩ := id busy
    exact busy.skipEmpty (by omega)

theorem select_filled (ready : s.turn.Ready) (busy : s.Busy) : s.length s.selectQueueToDeque.qToDq ≠ 0 ↔
    (s.schedMode = .WIRR → (∃ q < s.numQueues, s.length q ≠ 0 ∧ s.wirrqDone q = false) ∨ s.length (s.next s.qToDq) ≠ 0) := by
  have inUse : s.qToDq < s.numQueues := ready.inUse
  unfold selectQueueToDeque
  cases mode : s.schedMode with
  | RR => exact iff_of_true (busy.skipEmpty (Nat.mod_lt _ (by omega))) (fun other => by cases other)
  | WRR =>
    refine iff_of_true ?_ (fun other => by cases other)
    have same := scheduled_stepWRR s
    dsimp only
    rw [selectWRR_eq, (skipWRR_spec _ _).1, skipEmpty_congr same.redq same.numQueues, same.numQueues]
    exact busy.skipEmpty ((ready.stepWRR mode).inUse.trans_eq same.numQueues)
  | WIRR => exact (selectWIRR_filled inUse).trans (true_imp_iff.symm.trans (imp_congr_left (iff_of_true trivial rfl)))
  | PRI => exact iff_of_true (selectPRI_filled busy) (fun other => by cases other)

theorem returns_iff (ready : s.turn.Ready) (call : DsCall) : s.Returns call ↔ s.InTurn call := by
  cases call with
  | enque now u pkt => exact Iff.rfl
  | deque now =>
    have same := scheduled_select s
    have silent : (∃ t, s.deque now = some (t, none)) ↔ s.length s.selectQueueToDeque.qToDq = 0 := by
      constructor
      · rintro ⟨t, taken⟩
        rcases deque_cases taken with ⟨_, rfl, empty⟩ | ⟨pkt, other, _⟩
        · rw [length, ← same.redq]
          exact empty ((select_lt ready.inUse ready).trans_eq same.numQueues.symm)
        · cases other
      · intro empty
        have front : (s.selectQueueToDeque.redq s.selectQueueToDeque.qToDq).queue = [] := by
          rw [same.redq]
          exact List.length_eq_zero_iff.mp empty
        refine ⟨s.selectQueueToDeque, ?_⟩
        unfold deque
        dsimp only
        split_ifs
        · rw [front]
        · rfl
    have filled : (∀ t, s.deque now ≠ some (t, none)) ↔ s.length s.selectQueueToDeque.qToDq ≠ 0 := not_exists.symm.trans silent.not
    exact (forall_congr' fun busy => filled.trans (select_filled ready busy)).trans forall_comm

/-- The place at which the share of a queue begins, in a round with as many places as the shares of all queues. -/
def startOf (share : ℕ → ℕ) (q : ℕ) : ℕ := ∑ j ∈ Finset.range q, share j

/-- Place `k` is one of queue `i`. -/
def Owns (share : ℕ → ℕ) (n i k : ℕ) : Prop := startOf share i ≤ k % startOf share n ∧ k % startOf share n < startOf share (i + 1)

instance (share : ℕ → ℕ) (n i : ℕ) : DecidablePred (Owns share n i) := fun _ => inferInstanceAs (Decidable (_ ∧ _))

section Places

variable {share : ℕ → ℕ} {i j k n q : ℕ}

theorem startOf_succ (share : ℕ → ℕ) (q : ℕ) : startOf share (q + 1) = startOf share q + share q := Finset.sum_range_succ ..

theorem startOf_mono (share : ℕ → ℕ) : Monotone (startOf share) := by
  refine monotone_nat_of_le_succ fun q => ?_
  rw [startOf_succ]
  exact Nat.le_add_right ..

theorem owns_iff (place : k % startOf share n = startOf share q + j) (within : j < share q) : Owns share n i k ↔ i = q := by
  have next := startOf_succ share q
  rw [Owns, place]
  constructor
  · rintro ⟨low, high⟩
    rcases lt_trichotomy i q with before | same | after
    · have order : startOf share (i + 1) ≤ startOf share q := startOf_mono share before
      omega
    · exact same
    · have order : startOf share (q + 1) ≤ startOf share i := startOf_mono share after
      omega
  · rintro rfl
    omega

/-- In any round each queue has as many places as its share. -/
theorem count_owns (inUse : i < n) (k : ℕ) : Nat.count (Owns share n i) (k + startOf share n) = Nat.count (Owns share n i) k + share i := by
  induction k with
  | zero =>
    have high := startOf_mono share (Nat.succ_le_of_lt inUse)
    have places : (Finset.range (startOf share n)).filter (Owns share n i) = Finset.Ico (startOf share i) (startOf share (i + 1)) := by
      ext k
      rw [Finset.mem_filter, Finset.mem_range, Finset.mem_Ico, Owns]
      refine ⟨fun ⟨low, owned⟩ => ?_, fun owned => ?_⟩
      · rwa [Nat.mod_eq_of_lt low] at owned
      · have low : k < startOf share n := owned.2.trans_le high
        rw [Nat.mod_eq_of_lt low]
        exact ⟨low, owned⟩
    rw [Nat.count_zero, Nat.zero_add, Nat.zero_add, Nat.count_eq_card_filter_range, places, Nat.card_Ico, startOf_succ, Nat.add_sub_cancel_left]
  | succ k ih =>
    have again : Owns share n i (k + startOf share n) ↔ Owns share n i k := by rw [Owns, Owns, Nat.add_mod_right]
    rw [Nat.add_right_comm, Nat.count_succ, Nat.count_succ, ih, if_congr again rfl rfl, Nat.add_right_comm]

end Places

/-- Every queue holds a packet when one is to be sent. -/
def Backlogged (s : DsREDQueue) : DsCall → Prop
  | .enque .. => True
  | .deque _ => ∀ q < s.numQueues, s.length q ≠ 0

/-- How often a packet is to be sent. -/
def deques : List DsCall → ℕ
  | [] => 0
  | .enque .. :: calls => deques calls
  | .deque _ :: calls => deques calls + 1

theorem deque_backlogged {answer : Option DsPacket} (ready : s.turn.Ready) (backlogged : s.Backlogged (.deque now))
    (taken : s.deque now = some (t, answer)) : t.pktcount = Function.update s.pktcount t.qToDq (s.pktcount t.qToDq + 1) := by
  have same := scheduled_select s
  rcases deque_cases taken with ⟨_, rfl, empty⟩ | ⟨pkt, _, sent⟩
  · have low := select_lt ready.inUse ready
    have none := empty (low.trans_eq same.numQueues.symm)
    rw [length, same.redq] at none
    exact absurd none (backlogged _ low)
  · rw [sent.pktcount, sent.scheduler.1, same.pktcount]

namespace Turn

variable {r : Turn}

def share (r : Turn) (i : ℕ) : ℕ := (r.queueWeight i).toNat

/-- Where the weighted round robin is, in rounds with a place for each of the shares. -/
def At (r : Turn) (k : ℕ) : Prop :=
  k % startOf r.share r.numQueues = startOf r.share r.qToDq + (r.queueWeight r.qToDq - 1 - r.wirrTemp r.qToDq).toNat

theorem Ready.within (ready : r.Ready) (mode : r.schedMode = .WRR) :
    (r.queueWeight r.qToDq - 1 - r.wirrTemp r.qToDq).toNat < r.share r.qToDq := by
  obtain ⟨low, high⟩ := ready.share mode
  unfold Turn.share
  omega

theorem Ready.exists_at (ready : r.Ready) (mode : r.schedMode = .WRR) : ∃ k, r.At k := by
  have within := ready.within mode
  have high : startOf r.share (r.qToDq + 1) ≤ startOf r.share r.numQueues := startOf_mono r.share ready.inUse
  rw [startOf_succ] at high
  exact ⟨_, Nat.mod_eq_of_lt (by omega)⟩

end Turn

/-- A step of the weighted round robin goes on by one place. -/
theorem stepWRR_at {k : ℕ} (ready : s.turn.Ready) (mode : s.schedMode = .WRR) (here : s.turn.At k) : s.stepWRR.turn.At (k + 1) := by
  have inUse : s.qToDq < s.numQueues := ready.inUse
  have within := ready.within mode
  have next := startOf_succ s.turn.share s.qToDq
  have high : startOf s.turn.share (s.qToDq + 1) ≤ startOf s.turn.share s.numQueues := startOf_mono s.turn.share inUse
  obtain ⟨low, below⟩ : 0 ≤ s.wirrTemp s.qToDq ∧ s.wirrTemp s.qToDq < s.queueWeight s.qToDq := ready.share mode
  have place : k % startOf s.turn.share s.numQueues = startOf s.turn.share s.qToDq + (s.queueWeight s.qToDq - 1 - s.wirrTemp s.qToDq).toNat := here
  have whole : s.turn.share s.qToDq = (s.queueWeight s.qToDq).toNat := rfl
  unfold stepWRR
  split_ifs with spent
  · have last : k % startOf s.turn.share s.numQueues + 1 = startOf s.turn.share (s.qToDq + 1) := by omega
    have first : (s.nextWRR.queueWeight s.nextWRR.qToDq - 1 - s.nextWRR.wirrTemp s.nextWRR.qToDq).toNat = 0 := by
      rw [show s.nextWRR.wirrTemp s.nextWRR.qToDq = s.queueWeight (s.next s.qToDq) - 1 from Function.update_self ..]
      exact Int.toNat_eq_zero.mpr (sub_self _).le
    show (k + 1) % startOf s.turn.share s.numQueues =
      startOf s.turn.share (s.next s.qToDq) + (s.nextWRR.queueWeight s.nextWRR.qToDq - 1 - s.nextWRR.wirrTemp s.nextWRR.qToDq).toNat
    rw [first, ← Nat.mod_add_mod, last, DsREDQueue.next]
    rcases Nat.lt_or_ge (s.qToDq + 1) s.numQueues with more | final
    · have weight : 1 ≤ s.queueWeight (s.qToDq + 1) := ready.weights _ more
      have beyond : startOf s.turn.share (s.qToDq + 1 + 1) ≤ startOf s.turn.share s.numQueues := startOf_mono s.turn.share more
      have grown := startOf_succ s.turn.share (s.qToDq + 1)
      have filled : s.turn.share (s.qToDq + 1) = (s.queueWeight (s.qToDq + 1)).toNat := rfl
      rw [Nat.mod_eq_of_lt more, Nat.mod_eq_of_lt (by omega)]
      exact (Nat.add_zero _).symm
    · rw [show s.qToDq + 1 = s.numQueues by omega, Nat.mod_self, Nat.mod_self]
      rfl
  · show (k + 1) % startOf s.turn.share s.numQueues = startOf s.turn.share s.qToDq +
      (s.queueWeight s.qToDq - 1 - Function.update s.wirrTemp s.qToDq (s.wirrTemp s.qToDq - 1) s.qToDq).toNat
    rw [Function.update_self, ← Nat.mod_add_mod, Nat.mod_eq_of_lt (by omega)]
    omega

theorem selectWRR_backlogged (ready : s.turn.Ready) (mode : s.schedMode = .WRR) (backlogged : s.Backlogged (.deque now)) :
    s.selectWRR = s.stepWRR := by
  have same := scheduled_stepWRR s
  have inUse : s.stepWRR.qToDq < s.numQueues := (ready.stepWRR mode).inUse.trans_eq same.numQueues
  have filled : s.stepWRR.length s.stepWRR.qToDq ≠ 0 := by
    rw [length, same.redq]
    exact backlogged _ inUse
  obtain ⟨m, succ⟩ := Nat.exists_eq_add_one_of_ne_zero (Nat.ne_zero_of_lt inUse)
  rw [selectWRR_eq, same.numQueues, succ, skipWRR_succ, if_neg filled]

theorem pktcount_step (before after : ℕ → ℕ) {q : ℕ} (counted : after = Function.update before q (before q + 1)) (i : ℕ) :
    after i = before i + if i = q then 1 else 0 := by
  rw [counted, Function.update_apply]
  split_ifs with same
  · rw [same]
  · rfl

/-- Each packet that is sent from a backlogged router is one of the queue that owns the place. -/
theorem count_wrr {last : DsREDQueue} {k : ℕ} {calls : List DsCall} {answers : List (Verdict ⊕ Option DsPacket)} (ready : s.turn.Ready)
    (mode : s.schedMode = .WRR) (here : s.turn.At k) (backlogged : component.Along Backlogged s calls)
    (run : component.run s calls = some (last, answers)) (i : ℕ) :
    last.pktcount i + Nat.count (Owns s.turn.share s.numQueues i) (k + 1) =
      s.pktcount i + Nat.count (Owns s.turn.share s.numQueues i) (k + 1 + deques calls) := by
  induction calls generalizing s k answers with
  | nil =>
    cases run
    rfl
  | cons call calls ih =>
    obtain ⟨⟨mid, answer⟩, taken, rest⟩ := Option.bind_eq_some_iff.mp run
    obtain ⟨⟨final, others⟩, finished, same⟩ := Option.bind_eq_some_iff.mp rest
    cases same
    have onward := backlogged.tail taken
    cases call with
    | enque now u pkt =>
      obtain ⟨⟨mid, verdict⟩, stored, same⟩ := Option.map_eq_some_iff.mp taken
      cases same
      obtain ⟨turn, counts⟩ := enque_turn stored
      have settled := ih (turn ▸ ready) ((congrArg Turn.schedMode turn).trans mode) (turn ▸ here) onward finished
      rw [turn, show mid.numQueues = s.numQueues from congrArg Turn.numQueues turn, counts] at settled
      exact settled
    | deque now =>
      obtain ⟨⟨mid, packet⟩, sent, same⟩ := Option.map_eq_some_iff.mp taken
      cases same
      have chosen : s.selectQueueToDeque = s.stepWRR := by
        rw [selectQueueToDeque, mode]
        exact selectWRR_backlogged ready mode backlogged.head
      have turn := deque_turn sent
      rw [chosen] at turn
      have kept := scheduled_stepWRR s
      have numQueues : mid.numQueues = s.numQueues := (congrArg Turn.numQueues turn).trans kept.numQueues
      have share : mid.turn.share = s.turn.share := by rw [turn]; exact congrArg (fun w i => Int.toNat (w i)) kept.queueWeight
      have after : mid.turn.At (k + 1) := turn ▸ stepWRR_at ready mode here
      have ready' : mid.turn.Ready := turn ▸ ready.stepWRR mode
      have mode' : mid.schedMode = .WRR := (congrArg Turn.schedMode turn).trans (kept.schedMode.trans mode)
      have settled := ih ready' mode' after onward finished
      have owner : Owns mid.turn.share mid.numQueues i (k + 1) ↔ i = mid.qToDq := owns_iff after (ready'.within mode')
      rw [share, numQueues] at settled owner
      have counts := pktcount_step _ _ (deque_backlogged ready backlogged.head sent) i
      rw [Nat.count_succ, if_congr owner rfl rfl, counts] at settled
      rw [deques, ← Nat.add_assoc, Nat.add_right_comm (k + 1)]
      omega

namespace Turn

variable {r : Turn}

/-- What is left of the share of a queue in a round of the interleaved round robin. -/
def left (r : Turn) (i : ℕ) : ℤ := if r.wirrqDone i then 0 else r.wirrTemp i

def doneCount (r : Turn) : ℕ := ((Finset.range r.numQueues).filter fun i => r.wirrqDone i = true).card

structure Tallied (r : Turn) : Prop where
  tally : r.queuesDone = r.doneCount
  shares : ∀ i < r.numQueues, r.wirrqDone i = false → 1 ≤ r.wirrTemp i

theorem Tallied.all_done (tallied : r.Tallied) (full : r.numQueues ≤ r.queuesDone) (low : i < r.numQueues) : r.wirrqDone i = true := by
  have few := Finset.card_filter_le (Finset.range r.numQueues) fun i => r.wirrqDone i = true
  rw [Finset.card_range] at few
  have all : ((Finset.range r.numQueues).filter fun i => r.wirrqDone i = true).card = (Finset.range r.numQueues).card := by
    rw [Finset.card_range]
    exact few.antisymm (full.trans_eq tallied.tally)
  exact Finset.card_filter_eq_iff.mp all i (Finset.mem_range.mpr low)

theorem Tallied.full (tallied : r.Tallied) (all : ∀ i < r.numQueues, r.wirrqDone i = true) : r.queuesDone = r.numQueues := by
  rw [tallied.tally, doneCount, Finset.filter_true_of_mem fun i inRange => all i (Finset.mem_range.mp inRange), Finset.card_range]

/-- In a round: some queue is not done. -/
structure Round (r : Turn) : Prop extends Tallied r where
  unfinished : r.queuesDone < r.numQueues

theorem Round.left_pos (round : r.Round) : 0 < ∑ i ∈ Finset.range r.numQueues, r.left i := by
  have nonneg : ∀ i ∈ Finset.range r.numQueues, 0 ≤ r.left i := by
    intro i inRange
    unfold left
    split_ifs with done
    · exact le_rfl
    · exact Int.le_of_lt (round.shares i (Finset.mem_range.mp inRange) (Bool.eq_false_of_not_eq_true done))
  refine Finset.sum_pos' nonneg ?_
  by_contra none
  refine (round.full fun i low => ?_).not_lt round.unfinished
  by_contra fresh
  refine none ⟨i, Finset.mem_range.mpr low, ?_⟩
  rw [left, if_neg fresh]
  exact round.shares i low (Bool.eq_false_of_not_eq_true fresh)

end Turn

theorem setDone_tallied (tallied : s.turn.Tallied) (low : q < s.numQueues) (fresh : s.wirrqDone q = false) :
    (s.setDone q).turn.doneCount = (s.setDone q).queuesDone := by
  have more : (Finset.range s.numQueues).filter (fun i => Function.update s.wirrqDone q true i = true) =
      insert q ((Finset.range s.numQueues).filter fun i => s.wirrqDone i = true) := by
    ext i
    rw [Finset.mem_insert, Finset.mem_filter, Finset.mem_filter, Finset.mem_range, Function.update_apply]
    split_ifs with same
    · simp [same, low]
    · simp [same]
  show ((Finset.range s.numQueues).filter fun i => Function.update s.wirrqDone q true i = true).card = s.queuesDone + 1
  rw [more, Finset.card_insert_of_notMem (by simp [fresh]), show s.queuesDone = _ from tallied.tally]
  rfl

theorem passBy_tallied (tallied : s.turn.Tallied) (low : s.qToDq < s.numQueues) : s.passBy.turn.Tallied := by
  unfold passBy
  dsimp only
  split_ifs with done
  · exact ⟨tallied.tally, tallied.shares⟩
  · have fresh := Bool.eq_false_of_not_eq_true done
    refine ⟨(setDone_tallied tallied low fresh).symm, fun i within open_ => tallied.shares i within ?_⟩
    have other : i ≠ s.qToDq := by
      rintro rfl
      exact Bool.false_ne_true (open_.symm.trans (Function.update_self ..))
    exact (Function.update_of_ne other ..).symm.trans open_

theorem skipWIRR_tallied (m : ℕ) (tallied : s.turn.Tallied) (low : s.qToDq < s.numQueues) : (skipWIRR m s).turn.Tallied := by
  induction m generalizing s with
  | zero => exact tallied
  | succ m ih =>
    rw [skipWIRR_succ]
    split_ifs
    · obtain ⟨_, numQueues, onward, _⟩ := s.passBy_rest
      exact ih (passBy_tallied tallied low) (by rw [numQueues, onward]; exact Nat.mod_lt _ (by omega))
    · exact tallied

theorem skipWIRR_queuesDone (m : ℕ) (s : DsREDQueue) : s.queuesDone ≤ (skipWIRR m s).queuesDone := by
  induction m generalizing s with
  | zero => exact le_rfl
  | succ m ih =>
    rw [skipWIRR_succ]
    split_ifs
    · refine le_trans ?_ (ih s.passBy)
      unfold passBy
      dsimp only
      split_ifs
      · exact le_rfl
      · exact Nat.le_succ _
    · exact le_rfl

theorem takeShare_queuesDone (s : DsREDQueue) : s.queuesDone ≤ s.takeShare.queuesDone := by
  unfold takeShare
  dsimp only
  split_ifs
  · exact Nat.le_succ _
  · exact le_rfl

/-- A queue that is not done takes one of its share, and is done with the last one. -/
theorem takeShare_spec (tallied : s.turn.Tallied) (low : s.qToDq < s.numQueues) (fresh : s.wirrqDone s.qToDq = false) :
    s.takeShare.turn.Tallied ∧ ∀ i, s.takeShare.turn.left i = s.turn.left i - if i = s.qToDq then 1 else 0 := by
  have some_ : 1 ≤ s.wirrTemp s.qToDq := tallied.shares _ low fresh
  unfold takeShare
  dsimp only
  split_ifs with final
  · refine ⟨⟨(setDone_tallied tallied low fresh).symm, fun i within open_ => ?_⟩, fun i => ?_⟩
    · have other : i ≠ s.qToDq := by
        rintro rfl
        exact Bool.false_ne_true (open_.symm.trans (Function.update_self ..))
      exact (tallied.shares i within ((Function.update_of_ne other ..).symm.trans open_)).trans_eq (Function.update_of_ne other ..).symm
    · by_cases same : i = s.qToDq
      · subst same
        simp [Turn.left, DsREDQueue.turn, setDone, fresh, final]
      · show (if Function.update s.wirrqDone s.qToDq true i then 0 else Function.update s.wirrTemp s.qToDq _ i) = _
        rw [Function.update_of_ne same, Function.update_of_ne same, if_neg same, sub_zero]
        rfl
  · refine ⟨⟨tallied.tally, fun i within open_ => ?_⟩, fun i => ?_⟩
    · have before : 1 ≤ s.wirrTemp i := tallied.shares i within open_
      dsimp only [DsREDQueue.turn]
      rw [Function.update_apply]
      split_ifs with same
      · rw [same] at before
        omega
      · exact before
    · by_cases same : i = s.qToDq
      · subst same
        simp [Turn.left, DsREDQueue.turn, fresh]
      · show (if s.wirrqDone i then 0 else Function.update s.wirrTemp s.qToDq _ i) = _
        rw [Function.update_of_ne same, if_neg same, sub_zero]
        rfl

/-- A new round, with whole shares. -/
theorem refill_spec (full : s.numQueues ≤ s.queuesDone) (inUse : 0 < s.numQueues) (weights : ∀ i < s.numQueues, 1 ≤ s.queueWeight i) :
    s.refill.turn.Round ∧ ∀ i < s.numQueues, s.refill.turn.left i = s.queueWeight i := by
  unfold refill
  rw [if_pos full]
  refine ⟨⟨⟨?_, fun i low _ => ?_⟩, inUse⟩, fun i low => ?_⟩
  · refine (Finset.card_eq_zero.mpr (Finset.filter_false_of_mem fun i inRange => ?_)).symm
    have low : i < s.numQueues := Finset.mem_range.mp inRange
    dsimp only [turn]
    rw [if_pos low]
    exact Bool.false_ne_true
  · dsimp only [turn] at low ⊢
    rw [if_pos low]
    exact weights i low
  · simp [Turn.left, turn, low]

theorem selectWIRR_round (ready : s.turn.Ready) (begun : s.turn.Round ∨ s.numQueues ≤ s.queuesDone) : s.selectWIRR.turn.Round := by
  have inUse : s.qToDq < s.numQueues := ready.inUse
  have onward : s.turned.qToDq < s.turned.numQueues := Nat.mod_lt _ (by omega)
  have same := scheduled_skipWIRR s.numQueues s.turned
  have skipped := skipped_skipWIRR s.numQueues onward
  have taken := scheduled_takeShare (skipWIRR s.numQueues s.turned)
  have kept := taken.after same
  unfold selectWIRR
  rw [show ({ s with qToDq := s.next s.qToDq } : DsREDQueue) = s.turned from rfl]
  by_cases full : (skipWIRR s.numQueues s.turned).takeShare.numQueues ≤ (skipWIRR s.numQueues s.turned).takeShare.queuesDone
  · refine (refill_spec full ?_ ?_).1
    · rw [kept.numQueues]
      exact Nat.zero_lt_of_lt inUse
    · rw [kept.numQueues, kept.queueWeight]
      exact ready.weights
  · have few := takeShare_queuesDone (skipWIRR s.numQueues s.turned)
    have fewer := skipWIRR_queuesDone s.numQueues s.turned
    rw [kept.numQueues] at full
    have round := begun.resolve_right fun over_ => full (over_.trans (fewer.trans few))
    have tallied := skipWIRR_tallied s.numQueues (s := s.turned) ⟨round.tally, round.shares⟩ onward
    have low : (skipWIRR s.numQueues s.turned).qToDq < (skipWIRR s.numQueues s.turned).numQueues := skipped.inUse.trans_eq same.numQueues.symm
    have fresh : (skipWIRR s.numQueues s.turned).wirrqDone (skipWIRR s.numQueues s.turned).qToDq = false := by
      rcases skipped.found with ⟨_, fresh⟩ | ⟨_, all⟩
      · exact fresh
      · have whole := tallied.full fun i within => by
          obtain ⟨j, early, rfl⟩ := exists_turns onward (within.trans_eq same.numQueues)
          exact (all j early).2
        exact absurd (same.numQueues.symm.trans_le (whole.symm.trans_le few)) full
    have after := (takeShare_spec tallied low fresh).1
    rw [refill, if_neg (by rw [kept.numQueues]; exact full)]
    exact ⟨after, (Nat.lt_of_not_le full).trans_eq kept.numQueues.symm⟩

/-- When no queue is empty only those are passed that are done already. -/
theorem skipWIRR_backlogged (m : ℕ) (low : s.qToDq < s.numQueues) (filled : ∀ q < s.numQueues, s.length q ≠ 0) :
    skipWIRR m s = { s with qToDq := (skipWIRR m s).qToDq } := by
  induction m generalizing s with
  | zero => rfl
  | succ m ih =>
    rw [skipWIRR_succ]
    split_ifs with passed
    · have done : s.wirrqDone s.qToDq = true := passed.resolve_left (filled _ low)
      have skipped : s.passBy = s.turned := by
        unfold passBy
        rw [if_pos done]
        rfl
      rw [skipped]
      exact ih (s := s.turned) (Nat.mod_lt _ (by omega)) filled
    · rfl

/-- A packet is sent from a queue that has some of its share left, and the round ends with the last share of all. -/
theorem selectWIRR_left (ready : s.turn.Ready) (round : s.turn.Round) (filled : ∀ q < s.numQueues, s.length q ≠ 0) :
    (∀ i < s.numQueues, s.selectWIRR.turn.left i = s.turn.left i - if i = s.selectWIRR.qToDq then 1 else 0) ∨
      (∀ i < s.numQueues, s.turn.left i = if i = s.selectWIRR.qToDq then 1 else 0) ∧
        ∀ i < s.numQueues, s.selectWIRR.turn.left i = s.queueWeight i := by
  have inUse : s.qToDq < s.numQueues := ready.inUse
  have onward : s.turned.qToDq < s.turned.numQueues := Nat.mod_lt _ (by omega)
  have skipped := skipped_skipWIRR s.numQueues onward
  have unchanged := skipWIRR_backlogged s.numQueues onward filled
  rw [selectWIRR_qToDq]
  unfold selectWIRR
  rw [show ({ s with qToDq := s.next s.qToDq } : DsREDQueue) = s.turned from rfl]
  generalize skipWIRR s.numQueues s.turned = mid at skipped unchanged ⊢
  have before : mid.turn.Tallied := unchanged ▸ ⟨round.tally, round.shares⟩
  have numQueues : mid.numQueues = s.numQueues := unchanged ▸ rfl
  have weights : mid.queueWeight = s.queueWeight := unchanged ▸ rfl
  have left : ∀ i, mid.turn.left i = s.turn.left i := unchanged ▸ fun _ => rfl
  have fresh : mid.wirrqDone mid.qToDq = false := by
    rcases skipped.found with ⟨_, fresh⟩ | ⟨_, all⟩
    · exact fresh
    · refine absurd (before.full fun i within => ?_) ?_
      · obtain ⟨j, early, rfl⟩ := exists_turns onward (within.trans_eq numQueues)
        exact (all j early).2
      · have unfinished : s.queuesDone < s.numQueues := round.unfinished
        rw [show mid.turn.queuesDone = s.queuesDone by rw [unchanged]; rfl, show mid.turn.numQueues = s.numQueues from numQueues]
        exact unfinished.ne
  have kept := scheduled_takeShare mid
  obtain ⟨tallied, taken⟩ := takeShare_spec before (skipped.inUse.trans_eq numQueues.symm) fresh
  by_cases full : mid.takeShare.numQueues ≤ mid.takeShare.queuesDone
  · right
    have again := (refill_spec full (by rw [kept.numQueues, numQueues]; omega)
      (by rw [kept.numQueues, kept.queueWeight, numQueues, weights]; exact ready.weights)).2
    rw [kept.numQueues, kept.queueWeight, numQueues, weights] at again
    refine ⟨fun i low => ?_, again⟩
    have none : mid.takeShare.turn.left i = 0 := if_pos (tallied.all_done full (low.trans_eq (kept.numQueues.trans numQueues).symm))
    rw [taken, left] at none
    exact sub_eq_zero.mp none
  · left
    intro i _
    rw [refill, if_neg full, taken, left]

/-- A call leaves the schedulers ready, and in a round if they are in one. -/
theorem step_ready {call : DsCall} {answer : Verdict ⊕ Option DsPacket} (ready : s.turn.Ready)
    (taken : component.step s call = some (t, answer)) : t.turn.Ready ∧ t.schedMode = s.schedMode ∧
      (s.schedMode = .WIRR → s.turn.Round ∨ deques [call] ≠ 0 ∧ s.numQueues ≤ s.queuesDone → t.turn.Round) := by
  cases call with
  | enque now u pkt =>
    obtain ⟨⟨mid, verdict⟩, stored, same⟩ := Option.map_eq_some_iff.mp taken
    cases same
    obtain ⟨turn, _⟩ := enque_turn stored
    refine ⟨turn ▸ ready, congrArg Turn.schedMode turn, fun _ begun => ?_⟩
    rw [turn]
    exact begun.resolve_right fun none => none.1 rfl
  | deque now =>
    obtain ⟨⟨mid, packet⟩, sent, same⟩ := Option.map_eq_some_iff.mp taken
    cases same
    have turn := deque_turn sent
    refine ⟨turn ▸ ready.select, (congrArg Turn.schedMode turn).trans (scheduled_select s).schedMode, fun mode begun => ?_⟩
    rw [turn, selectQueueToDeque, mode]
    exact selectWIRR_round ready (begun.imp_right And.right)

/-- Each packet that is sent from a backlogged router is one of those the round owes, and then the next round begins. -/
theorem count_wirr {last : DsREDQueue} {calls : List DsCall} {answers : List (Verdict ⊕ Option DsPacket)} (owed : ℕ → ℤ)
    (ready : s.turn.Ready) (mode : s.schedMode = .WIRR) (round : s.turn.Round)
    (known : (∀ i < s.numQueues, owed i = s.turn.left i) ∨
      (∀ i < s.numQueues, owed i = 0) ∧ ∀ i < s.numQueues, s.turn.left i = s.queueWeight i)
    (enough : (deques calls : ℤ) = ∑ i ∈ Finset.range s.numQueues, owed i) (backlogged : component.Along Backlogged s calls)
    (run : component.run s calls = some (last, answers)) (low : i < s.numQueues) :
    (last.pktcount i : ℤ) = s.pktcount i + owed i ∧ last.turn.left i = s.queueWeight i := by
  induction calls generalizing s owed answers with
  | nil =>
    cases run
    rcases known with same | ⟨none, fresh⟩
    · rw [Finset.sum_congr rfl fun i inRange => same i (Finset.mem_range.mp inRange)] at enough
      exact absurd enough (ne_of_lt round.left_pos)
    · exact ⟨by rw [none i low, add_zero], fresh i low⟩
  | cons call calls ih =>
    obtain ⟨⟨mid, answer⟩, taken, rest⟩ := Option.bind_eq_some_iff.mp run
    obtain ⟨⟨final, others⟩, finished, same⟩ := Option.bind_eq_some_iff.mp rest
    cases same
    have onward := backlogged.tail taken
    obtain ⟨ready', mode', round'⟩ := step_ready ready taken
    replace round' := round' mode (Or.inl round)
    rw [mode] at mode'
    cases call with
    | enque now u pkt =>
      obtain ⟨⟨mid, verdict⟩, stored, same⟩ := Option.map_eq_some_iff.mp taken
      cases same
      obtain ⟨turn, counts⟩ := enque_turn stored
      have numQueues : mid.numQueues = s.numQueues := congrArg Turn.numQueues turn
      have weights : mid.queueWeight = s.queueWeight := congrArg Turn.queueWeight turn
      rw [← counts, ← weights]
      exact ih owed ready' mode' round' (by rw [numQueues, turn, weights]; exact known) (by rw [numQueues]; exact enough) onward finished
        (low.trans_eq numQueues.symm)
    | deque now =>
      obtain ⟨⟨mid, packet⟩, sent, same⟩ := Option.map_eq_some_iff.mp taken
      cases same
      have turn := deque_turn sent
      have kept := scheduled_select s
      have numQueues : mid.numQueues = s.numQueues := (congrArg Turn.numQueues turn).trans kept.numQueues
      have weights : mid.queueWeight = s.queueWeight := (congrArg Turn.queueWeight turn).trans kept.queueWeight
      have chosen : mid.qToDq = s.selectWIRR.qToDq := by
        rw [show mid.qToDq = _ from congrArg Turn.qToDq turn, selectQueueToDeque, mode]
        rfl
      have left : mid.turn.left = s.selectWIRR.turn.left := by rw [turn, selectQueueToDeque, mode]
      have inUse : mid.qToDq < s.numQueues := ready'.inUse.trans_eq numQueues
      rcases known with same | ⟨none, _⟩
      · have counts := pktcount_step _ _ (deque_backlogged ready backlogged.head sent) i
        have settled := ih (fun i => owed i - if i = mid.qToDq then 1 else 0) ready' mode' round' ?_ ?_ onward finished (low.trans_eq numQueues.symm)
        · refine ⟨?_, settled.2.trans (congrFun weights i)⟩
          rw [settled.1, counts]
          push_cast
          ring
        · rw [numQueues, weights, left, chosen]
          rcases selectWIRR_left ready round backlogged.head with less | ⟨one, fresh⟩
          · exact Or.inl fun i low => by rw [same i low, less i low]
          · exact Or.inr ⟨fun i low => by rw [same i low, one i low, sub_self], fresh⟩
        · rw [numQueues, Finset.sum_sub_distrib, ← enough, Finset.sum_ite_eq' (Finset.range s.numQueues) mid.qToDq fun _ => (1 : ℤ),
            if_pos (Finset.mem_range.mpr inUse), deques]
          push_cast
          ring
      · rw [Finset.sum_eq_zero fun i inRange => none i (Finset.mem_range.mp inRange), deques] at enough
        omega

/-- What holds for each period of a run in which all queues stay backlogged. A round of the weighted round robin begins with any call. One of the
interleaved round robin begins when all shares have been used up: what is left of them is served, and then each queue has its whole share. -/
def Rounds (start : DsREDQueue) (calls : List DsCall) : Prop :=
  ∀ (first period rest : List DsCall) (mid last : DsREDQueue) (answers others : List (Verdict ⊕ Option DsPacket)),
    calls = first ++ (period ++ rest) → component.run start first = some (mid, answers) → component.run mid period = some (last, others) →
    component.Along Backlogged mid period →
      (start.schedMode = .WRR → (deques period : ℤ) = ∑ i ∈ Finset.range start.numQueues, start.queueWeight i →
        ∀ i < start.numQueues, (last.pktcount i : ℤ) = mid.pktcount i + start.queueWeight i) ∧
      (start.schedMode = .WIRR → deques first ≠ 0 → (deques period : ℤ) = ∑ i ∈ Finset.range start.numQueues, mid.turn.left i →
        ∀ i < start.numQueues, (last.pktcount i : ℤ) = mid.pktcount i + mid.turn.left i ∧ last.turn.left i = start.queueWeight i)

/-- As the constructor leaves the scheduler, with the queues and weights that have been configured since. -/
structure Constructed (s : DsREDQueue) : Prop where
  inUse : 1 ≤ s.numQueues ∧ s.numQueues ≤ MAX_QUEUES
  weights : ∀ i < s.numQueues, 1 ≤ s.queueWeight i
  qToDq : s.qToDq = 0
  wirrTemp : ∀ i, s.wirrTemp i = 0
  wirrqDone : ∀ i, s.wirrqDone i = false
  queuesDone : s.queuesDone = MAX_QUEUES

theorem Constructed.ready (constructed : s.Constructed) : s.turn.Ready := by
  have inUse := constructed.inUse.1
  refine ⟨?_, constructed.weights, fun _ => ?_⟩
  · dsimp only [turn]
    rw [constructed.qToDq]
    exact inUse
  · dsimp only [turn]
    rw [constructed.wirrTemp, constructed.qToDq]
    exact ⟨le_rfl, constructed.weights 0 inUse⟩

/-- What a run leaves of the configuration, and that it is in a round after the first packet has been asked for. -/
theorem run_ready {last : DsREDQueue} {calls : List DsCall} {answers : List (Verdict ⊕ Option DsPacket)} (ready : s.turn.Ready)
    (run : component.run s calls = some (last, answers)) : last.turn.Ready ∧ last.schedMode = s.schedMode ∧
      last.numQueues = s.numQueues ∧ last.queueWeight = s.queueWeight ∧
      (s.schedMode = .WIRR → s.turn.Round ∨ deques calls ≠ 0 ∧ s.numQueues ≤ s.queuesDone → last.turn.Round) := by
  induction calls generalizing s answers with
  | nil =>
    cases run
    exact ⟨ready, rfl, rfl, rfl, fun _ begun => begun.resolve_right fun none => none.1 rfl⟩
  | cons call calls ih =>
    obtain ⟨⟨mid, answer⟩, taken, rest⟩ := Option.bind_eq_some_iff.mp run
    obtain ⟨⟨final, others⟩, finished, same⟩ := Option.bind_eq_some_iff.mp rest
    cases same
    obtain ⟨ready', mode, round⟩ := step_ready ready taken
    obtain ⟨readyLast, modeLast, queuesLast, weightsLast, roundLast⟩ := ih ready' finished
    rw [mode] at modeLast roundLast
    cases call with
    | enque now u pkt =>
      obtain ⟨⟨mid, verdict⟩, stored, same⟩ := Option.map_eq_some_iff.mp taken
      cases same
      obtain ⟨turn, _⟩ := enque_turn stored
      refine ⟨readyLast, modeLast, queuesLast.trans (congrArg Turn.numQueues turn), weightsLast.trans (congrArg Turn.queueWeight turn),
        fun wirr begun => roundLast wirr ?_⟩
      rw [turn, show mid.numQueues = s.numQueues from congrArg Turn.numQueues turn,
        show mid.queuesDone = s.queuesDone from congrArg Turn.queuesDone turn]
      exact begun
    | deque now =>
      obtain ⟨⟨mid, packet⟩, sent, same⟩ := Option.map_eq_some_iff.mp taken
      cases same
      have turn := deque_turn sent
      have kept := scheduled_select s
      refine ⟨readyLast, modeLast, queuesLast.trans ((congrArg Turn.numQueues turn).trans kept.numQueues),
        weightsLast.trans ((congrArg Turn.queueWeight turn).trans kept.queueWeight), fun wirr begun => roundLast wirr (Or.inl (round wirr ?_))⟩
      exact begun.imp_right fun full => ⟨Nat.succ_ne_zero _, full.2⟩

theorem Constructed.rounds (constructed : s.Constructed) (calls : List DsCall) : s.Rounds calls := by
  intro first period rest mid last answers others _ reached run backlogged
  obtain ⟨ready, mode, numQueues, weights, round⟩ := run_ready constructed.ready reached
  constructor
  · intro wrr enough i low
    obtain ⟨k, here⟩ := ready.exists_at (mode.trans wrr)
    have counts := count_wrr ready (mode.trans wrr) here backlogged run i
    have whole : deques period = startOf mid.turn.share mid.numQueues := by
      have positive : ∀ i ∈ Finset.range s.numQueues, (mid.turn.share i : ℤ) = s.queueWeight i := by
        intro i inRange
        have weight := constructed.weights i (Finset.mem_range.mp inRange)
        rw [Turn.share, show mid.turn.queueWeight = s.queueWeight from weights]
        exact Int.toNat_of_nonneg (by omega)
      rw [← Finset.sum_congr rfl positive] at enough
      rw [startOf, numQueues]
      exact Int.ofNat.inj (enough.trans (Nat.cast_sum ..).symm)
    have weight := constructed.weights i low
    rw [whole, count_owns (low.trans_eq numQueues.symm)] at counts
    have share : mid.turn.share i = (s.queueWeight i).toNat := congrArg (fun w : ℕ → ℤ => (w i).toNat) weights
    omega
  · intro wirr begun enough i low
    have full : s.numQueues ≤ s.queuesDone := constructed.inUse.2.trans_eq constructed.queuesDone.symm
    rw [← numQueues] at enough low
    rw [← weights]
    exact count_wirr mid.turn.left ready (mode.trans wirr) (round wirr (Or.inr ⟨begun, full⟩)) (Or.inl fun _ _ => rfl) enough backlogged run low

instance (s : DsREDQueue) : Decidable s.Busy := inferInstanceAs (Decidable (∃ q < s.numQueues, s.length q ≠ 0))

instance (s : DsREDQueue) : ∀ call, Decidable (s.InTurn call)
  | .enque .. => isTrue trivial
  | .deque _ => inferInstanceAs (Decidable (s.schedMode = .WIRR → s.Busy →
      (∃ q < s.numQueues, s.length q ≠ 0 ∧ s.wirrqDone q = false) ∨ s.length (s.next s.qToDq) ≠ 0))

theorem along_returns_iff (ready : s.turn.Ready) (calls : List DsCall) :
    component.Along Returns s calls ↔ component.Along InTurn s calls := by
  constructor
  · exact Machine.along_of_kept (fun s call next answer ready _ taken => (step_ready ready taken).1)
      (fun s call ready met => (returns_iff ready call).mp met) ready
  · exact Machine.along_of_kept (fun s call next answer ready _ taken => (step_ready ready taken).1)
      (fun s call ready met => (returns_iff ready call).mpr met) ready

theorem constructed_sample (mode : MredMode) (schedMode : SchedMode) : (sample mode schedMode).Constructed where
  inUse := ⟨show 1 ≤ 2 by decide, show 2 ≤ 8 by decide⟩
  weights _ _ := le_rfl
  qToDq := rfl
  wirrTemp _ := rfl
  wirrqDone _ := rfl
  queuesDone := rfl

end DsREDQueue

end Ns2
