import Mathlib.Algebra.BigOperators.Intervals
import Mathlib.Data.List.Infix
import Mathlib.Order.Bounds.Basic
import Ns2.Library.Machine
import Ns2.Library.Ring

namespace Ns2

/-- One call of `Acker::update`. -/
structure Arrival where
  seq : ℕ
  numBytes : ℕ
deriving DecidableEq

/-- `Acker`: what the receiver has seen of the packets from `next_` on. -/
structure Acker where
  next : ℕ
  maxseen : ℕ
  wndmask : ℕ
  seen : ℕ → ℕ
  isDup : Bool

namespace Acker

/-- `MWM`. -/
def defaultWndmask : ℕ := 63

def init : Acker := ⟨0, 0, defaultWndmask, fun _ => 0, false⟩

def resizeBuffers (a : Acker) (sz : ℕ) : Acker :=
  let newWndmask := sz - 1
  { a with
    seen := Ring.fill (· &&& newWndmask) (fun i => a.seen (i &&& a.wndmask)) (fun _ => 0) a.next
      (a.maxseen + 2 - a.next)
    wndmask := newWndmask }

/-- The loop that doubles the buffer until `seq` fits into it. -/
def makeRoom (a : Acker) (seq : ℕ) : Acker :=
  if a.next + a.wndmask ≤ seq + 1 then (a.resizeBuffers ((a.wndmask + 1) * 2)).makeRoom seq else a
termination_by seq + 2 - (a.next + a.wndmask)
decreasing_by
  simp only [resizeBuffers]
  omega

/-- The packets between the old and the new `maxseen_` are recorded as unseen. -/
def markHighest (a : Acker) (seq numBytes : ℕ) : Acker :=
  let unseen := Ring.fill (· &&& a.wndmask) (fun _ => 0) a.seen (a.maxseen + 1) (seq - (a.maxseen + 1))
  let recorded := Function.update unseen (seq &&& a.wndmask) numBytes
  { a with maxseen := seq, seen := Function.update recorded ((seq + 1) &&& a.wndmask) 0 }

/-- The delivery loop. A pass over every place of the ring that finds none of
them zero would go on for ever: it is `none`. -/
def deliver (seen : ℕ → ℕ) (wndmask : ℕ) : ℕ → ℕ → ℕ → Option (ℕ × ℕ)
  | 0, _, _ => none
  | places + 1, next, numToDeliver =>
    if seen (next &&& wndmask) = 0 then some (next, numToDeliver)
    else deliver seen wndmask places (next + 1) (numToDeliver + seen (next &&& wndmask))

/-- The block of `update` for a packet inside the window. -/
def receive (a : Acker) (seq numBytes : ℕ) (justMarkedAsSeen : Bool) : Option (Acker × ℕ) :=
  let isDup := a.isDup || (a.seen (seq &&& a.wndmask) ≠ 0 && !justMarkedAsSeen)
  let seen := Function.update a.seen (seq &&& a.wndmask) numBytes
  (deliver seen a.wndmask (a.wndmask + 1) a.next 0).map fun (next, numToDeliver) =>
    ({ a with isDup, seen, next }, numToDeliver)

def update (a : Acker) (seq numBytes : ℕ) : Option (Acker × ℕ) :=
  let a := { a with isDup := false }.makeRoom seq
  let justMarkedAsSeen : Bool := a.maxseen < seq
  let a := if justMarkedAsSeen then a.markHighest seq numBytes else a
  if seq < a.next then some ({ a with isDup := true }, 0)
  else if seq ≤ a.maxseen then a.receive seq numBytes justMarkedAsSeen
  else some (a, 0)

def machine : Machine Acker Arrival ℕ where
  step a x := a.update x.seq x.numBytes

/-- Packet `k` is among the arrivals. -/
def Received (past : List Arrival) (k : ℕ) : Prop := ∃ x ∈ past, x.seq = k

instance Received.decidable (past : List Arrival) (k : ℕ) : Decidable (Received past k) :=
  inferInstanceAs (Decidable (∃ x ∈ past, x.seq = k))

/-- The size that packet `k` had when it last arrived, and 0 before its arrival. -/
def recorded (past : List Arrival) (k : ℕ) : ℕ :=
  past.foldl (fun bytes x => if x.seq = k then x.numBytes else bytes) 0

/-- The size recorded for packet `k` at the first arrival after which no
packet up to `k` was missing. -/
def sizeDelivered (past : List Arrival) (k : ℕ) : ℕ :=
  match past.inits.find? fun earlier => ∀ j ≤ k, Received earlier j with
  | some earlier => recorded earlier k
  | none => 0

theorem received_append {past : List Arrival} {x : Arrival} {k : ℕ} :
    Received (past ++ [x]) k ↔ Received past k ∨ x.seq = k := by
  simp [Received, or_and_right, exists_or]

theorem recorded_append (past : List Arrival) (x : Arrival) (k : ℕ) :
    recorded (past ++ [x]) k = if x.seq = k then x.numBytes else recorded past k := by
  simp [recorded]

theorem recorded_pos {past : List Arrival} (positive : ∀ x ∈ past, 0 < x.numBytes) (k : ℕ) :
    recorded past k ≠ 0 ↔ Received past k := by
  induction past using List.reverseRecOn with
  | nil => simp [recorded, Received]
  | append_singleton past x ih =>
    have before := ih fun y member => positive y (by simp [member])
    have now := positive x (by simp)
    rw [recorded_append, received_append, ← before]
    split_ifs with same
    · exact ⟨fun _ => Or.inr same, fun _ => now.ne'⟩
    · simp [same]

theorem sizeDelivered_of_complete {past : List Arrival} {k : ℕ} (complete : ∀ j ≤ k, Received past j)
    (x : Arrival) : sizeDelivered (past ++ [x]) k = sizeDelivered past k := by
  have found : ((past.inits.find? fun earlier => decide (∀ j ≤ k, Received earlier j)).isSome) := by
    rw [List.find?_isSome]
    exact ⟨past, (List.mem_inits past past).mpr List.prefix_rfl, decide_eq_true complete⟩
  obtain ⟨earlier, first⟩ := Option.isSome_iff_exists.mp found
  simp only [sizeDelivered, List.inits_append, List.find?_append, first, Option.some_or]

theorem sizeDelivered_now {past : List Arrival} {x : Arrival} {k : ℕ} (missing : ∃ j ≤ k, ¬Received past j)
    (complete : ∀ j ≤ k, Received (past ++ [x]) j) :
    sizeDelivered (past ++ [x]) k = recorded (past ++ [x]) k := by
  obtain ⟨j, upTo, absent⟩ := missing
  have none : (past.inits.find? fun earlier => decide (∀ j ≤ k, Received earlier j)) = none := by
    rw [List.find?_eq_none]
    intro earlier member claimed
    obtain ⟨y, inside, same⟩ := of_decide_eq_true claimed j upTo
    exact absent ⟨y, ((List.mem_inits earlier past).mp member).subset inside, same⟩
  simp only [sizeDelivered, List.inits_append, List.find?_append, none, Option.none_or]
  simp [if_pos complete]

/-- The receiver after these arrivals, as its fields represent it. -/
structure Tracks (past : List Arrival) (a : Acker) : Prop where
  positive : ∀ x ∈ past, 0 < x.numBytes
  missing : ¬Received past a.next
  below : ∀ k < a.next, Received past k
  highest : IsGreatest {k | k = 0 ∨ Received past k} a.maxseen
  mask : ∃ p, a.wndmask + 1 = 2 ^ p
  room : a.maxseen + 1 < a.next + a.wndmask
  ring : ∀ k, a.next ≤ k → k ≤ a.maxseen + 1 → a.seen (k &&& a.wndmask) = recorded past k

theorem init_tracks : Tracks [] init where
  positive _ member := absurd member List.not_mem_nil
  missing := by simp [Received]
  below k less := absurd less (Nat.not_lt_zero k)
  highest := ⟨Or.inl rfl, fun k member => by simpa [Received, init] using member⟩
  mask := ⟨6, rfl⟩
  room := by decide
  ring _ _ _ := rfl

theorem and_mask {m : ℕ} (mask : ∃ p, m + 1 = 2 ^ p) (k : ℕ) : k &&& m = k % (m + 1) := by
  obtain ⟨p, power⟩ := mask
  have shape : m = 2 ^ p - 1 := by omega
  rw [power, shape, Nat.and_two_pow_sub_one_eq_mod]

theorem Tracks.next_le {past : List Arrival} {a : Acker} (tracks : Tracks past a) : a.next ≤ a.maxseen + 1 := by
  by_contra beyond
  have received := tracks.below (a.maxseen + 1) (by omega)
  have bound := tracks.highest.2 (Or.inr received)
  omega

theorem Tracks.unseen {past : List Arrival} {a : Acker} (tracks : Tracks past a) {k : ℕ} (above : a.maxseen < k) :
    recorded past k = 0 := by
  by_contra seen
  have bound := tracks.highest.2 (Or.inr ((recorded_pos tracks.positive k).mp seen))
  omega

theorem Tracks.window {past : List Arrival} {a : Acker} (tracks : Tracks past a) :
    Ring.Window (a.wndmask + 1) a.seen a.next (a.maxseen + 2) (recorded past) where
  fits := by
    have room := tracks.room
    omega
  stored k low high := by
    rw [← and_mask tracks.mask]
    exact tracks.ring k low (by omega)

theorem Tracks.resized {past : List Arrival} {a : Acker} (tracks : Tracks past a) :
    Tracks past (a.resizeBuffers ((a.wndmask + 1) * 2)) := by
  have room := tracks.room
  have ordered := tracks.next_le
  have mask : ∃ p, (a.wndmask + 1) * 2 - 1 + 1 = 2 ^ p := by
    obtain ⟨p, power⟩ := tracks.mask
    exact ⟨p + 1, by omega⟩
  refine ⟨tracks.positive, tracks.missing, tracks.below, tracks.highest, mask, ?_, ?_⟩
  · simp only [resizeBuffers]
    omega
  · intro k low high
    simp only [resizeBuffers] at low high ⊢
    have start := Ring.Window.empty ((a.wndmask + 1) * 2 - 1 + 1) (fun _ => 0) (recorded past) a.next
    have copied := start.fill (fun i => a.seen (i &&& a.wndmask)) (a.maxseen + 2 - a.next) le_rfl (by omega)
      fun i lowI highI => tracks.ring i lowI (by omega)
    simp only [← and_mask mask] at copied
    rw [and_mask mask]
    exact copied.stored k low (by omega)

/-- The doubling loop ends with room for `seq` and has touched the buffer only. -/
theorem Tracks.roomMade {past : List Arrival} {a : Acker} (tracks : Tracks past a) (seq : ℕ) :
    Tracks past (a.makeRoom seq) ∧ seq + 1 < (a.makeRoom seq).next + (a.makeRoom seq).wndmask ∧
      (a.makeRoom seq).next = a.next ∧ (a.makeRoom seq).isDup = a.isDup := by
  fun_induction makeRoom a seq with
  | case1 a full ih => exact ih tracks.resized
  | case2 a fits => exact ⟨tracks, by omega, rfl, rfl⟩

/-- A new highest packet: the ring holds the window up to it, the places it has reused included. -/
theorem Tracks.marked {past : List Arrival} {a : Acker} (tracks : Tracks past a) {x : Arrival}
    (above : a.maxseen < x.seq) (fits : x.seq + 1 < a.next + a.wndmask) :
    Ring.Window (a.wndmask + 1) (a.markHighest x.seq x.numBytes).seen a.next (x.seq + 2)
      (recorded (past ++ [x])) := by
  have ordered := tracks.next_le
  have old : Ring.Window (a.wndmask + 1) a.seen a.next (a.maxseen + 1) (recorded (past ++ [x])) :=
    (tracks.window.shrink le_rfl (by omega)).congr fun k _ high => by rw [recorded_append, if_neg (by omega)]
  have unseen := old.fill (fun _ => 0) (x.seq - (a.maxseen + 1)) ordered (by omega) fun k low high => by
    rw [recorded_append, if_neg (by omega), tracks.unseen (by omega)]
  rw [show a.maxseen + 1 + (x.seq - (a.maxseen + 1)) = x.seq by omega] at unseen
  have marked := unseen.extend x.numBytes (by omega) (by omega) (by rw [recorded_append, if_pos rfl])
  have cleared := marked.extend 0 (by omega) (by omega)
    (by rw [recorded_append, if_neg (by omega), tracks.unseen (by omega)])
  simp only [markHighest, and_mask tracks.mask]
  exact cleared

/-- The delivery loop stops at the first packet missing from the window. -/
theorem deliver_stops {seen value : ℕ → ℕ} {wndmask stop : ℕ} (absent : value stop = 0) (places next : ℕ)
    (ring : ∀ k, next ≤ k → k ≤ stop → seen (k &&& wndmask) = value k) (inside : next ≤ stop)
    (enough : stop < next + places) (total : ℕ) :
    ∃ reached, next ≤ reached ∧ reached ≤ stop ∧ value reached = 0 ∧
      (∀ k, next ≤ k → k < reached → value k ≠ 0) ∧
      deliver seen wndmask places next total = some (reached, total + ∑ k ∈ Finset.Ico next reached, value k) := by
  induction places generalizing next total with
  | zero => omega
  | succ places ih =>
    have slot := ring next le_rfl inside
    by_cases zero : value next = 0
    · refine ⟨next, le_rfl, inside, zero, fun k low high => absurd (low.trans_lt high) (lt_irrefl next), ?_⟩
      rw [deliver, slot, if_pos zero, Finset.Ico_self, Finset.sum_empty, Nat.add_zero]
    · have further : next < stop := by
        rcases inside.lt_or_eq with less | same
        · exact less
        · exact absurd (same ▸ absent) zero
      obtain ⟨reached, low, high, ended, full, delivered⟩ := ih (next + 1)
        (fun k lowK highK => ring k (by omega) highK) further (by omega) (total + value next)
      refine ⟨reached, by omega, high, ended, ?_, ?_⟩
      · intro k lowK highK
        rcases lowK.lt_or_eq with less | same
        · exact full k less highK
        · exact same ▸ zero
      · rw [deliver, slot, if_neg zero, delivered, 
          Finset.sum_eq_sum_Ico_succ_bot (show next < reached by omega), Nat.add_assoc]

/-- The delivery loop on a window that holds all arrivals up to the latest one. -/
theorem deliver_tracks {past : List Arrival} {a : Acker} (positive : ∀ x ∈ past, 0 < x.numBytes)
    (below : ∀ k < a.next, Received past k) (highest : IsGreatest {k | k = 0 ∨ Received past k} a.maxseen)
    (mask : ∃ p, a.wndmask + 1 = 2 ^ p) (room : a.maxseen + 1 < a.next + a.wndmask)
    (window : Ring.Window (a.wndmask + 1) a.seen a.next (a.maxseen + 2) (recorded past)) :
    ∃ next, a.next ≤ next ∧ Tracks past { a with next } ∧
      deliver a.seen a.wndmask (a.wndmask + 1) a.next 0 =
        some (next, ∑ k ∈ Finset.Ico a.next next, recorded past k) := by
  have received := recorded_pos positive
  have inside : a.next ≤ a.maxseen + 1 := by
    by_contra beyond
    have bound := highest.2 (Or.inr (below (a.maxseen + 1) (by omega)))
    omega
  have absent : recorded past (a.maxseen + 1) = 0 := by
    by_contra seen
    have bound := highest.2 (Or.inr ((received _).mp seen))
    omega
  have ring : ∀ k, a.next ≤ k → k ≤ a.maxseen + 1 → a.seen (k &&& a.wndmask) = recorded past k := by
    intro k low high
    rw [and_mask mask]
    exact window.stored k low (by omega)
  obtain ⟨next, low, high, ended, full, delivered⟩ :=
    deliver_stops absent (a.wndmask + 1) a.next ring inside (by omega) 0
  refine ⟨next, low, ⟨positive, ?_, ?_, highest, mask, by simp only; omega, ?_⟩, ?_⟩
  · exact fun claimed => (received next).mpr claimed ended
  · intro k less
    by_cases early : k < a.next
    · exact below k early
    · exact (received k).mp (full k (by omega) less)
  · exact fun k lowK highK => ring k (low.trans lowK) highK
  · rw [delivered, Nat.zero_add]

/-- Receiving a packet inside the window, whose slot has been marked already or holds its last arrival. -/
theorem receive_tracks {past : List Arrival} {x : Arrival} {a : Acker} {value : ℕ → ℕ} (just : Bool)
    (positive : ∀ y ∈ past ++ [x], 0 < y.numBytes) (below : ∀ k < a.next, Received past k)
    (highest : IsGreatest {k | k = 0 ∨ Received (past ++ [x]) k} a.maxseen)
    (mask : ∃ p, a.wndmask + 1 = 2 ^ p) (room : a.maxseen + 1 < a.next + a.wndmask)
    (window : Ring.Window (a.wndmask + 1) a.seen a.next (a.maxseen + 2) value)
    (agrees : ∀ k, k ≠ x.seq → value k = recorded (past ++ [x]) k) (low : a.next ≤ x.seq)
    (high : x.seq ≤ a.maxseen) :
    ∃ next out, a.receive x.seq x.numBytes just = some (next, out) ∧ Tracks (past ++ [x]) next ∧
      next.isDup = (a.isDup || (value x.seq ≠ 0 && !just)) ∧ a.next ≤ next.next ∧
      out = ∑ k ∈ Finset.Ico a.next next.next, recorded (past ++ [x]) k ∧
      ∀ k, a.next ≤ k → k ≤ next.maxseen + 1 → next.seen (k &&& next.wndmask) = recorded (past ++ [x]) k := by
  have slot := window.stored x.seq low (by omega)
  have written : Ring.Window (a.wndmask + 1) (Function.update a.seen (x.seq % (a.wndmask + 1)) x.numBytes) a.next
      (a.maxseen + 2) (recorded (past ++ [x])) :=
    (window.write low (by omega) x.numBytes).congr fun k _ _ => by
      by_cases same : k = x.seq
      · rw [same, Function.update_self, recorded_append, if_pos rfl]
      · rw [Function.update_of_ne same, agrees k same]
  rw [← and_mask mask] at slot written
  obtain ⟨next, advanced, tracks, delivered⟩ := deliver_tracks
    (a := { a with
      isDup := a.isDup || (value x.seq ≠ 0 && !just)
      seen := Function.update a.seen (x.seq &&& a.wndmask) x.numBytes })
    positive (fun k less => received_append.mpr (Or.inl (below k less))) highest mask room written
  refine ⟨_, _, ?_, tracks, rfl, advanced, rfl, fun k lowK highK => ?_⟩
  · simp only [receive, slot, delivered, Option.map_some]
  · simp only at highK ⊢
    rw [and_mask mask k]
    exact written.stored k lowK (by omega)

theorem Tracks.positive_append {past : List Arrival} {a : Acker} (tracks : Tracks past a) {x : Arrival}
    (nonempty : 0 < x.numBytes) : ∀ y ∈ past ++ [x], 0 < y.numBytes := by
  intro y member
  rcases List.mem_append.mp member with old | new
  · exact tracks.positive y old
  · exact List.mem_singleton.mp new ▸ nonempty

theorem Tracks.highest_append {past : List Arrival} {a : Acker} (tracks : Tracks past a) (x : Arrival) :
    IsGreatest {k | k = 0 ∨ Received (past ++ [x]) k} (max a.maxseen x.seq) := by
  refine ⟨?_, fun k claimed => ?_⟩
  · rcases max_choice a.maxseen x.seq with old | new
    · rw [old]
      exact tracks.highest.1.imp_right fun received => received_append.mpr (Or.inl received)
    · rw [new]
      exact Or.inr (received_append.mpr (Or.inr rfl))
  · rcases claimed with zero | received
    · exact zero ▸ Nat.zero_le _
    · rcases received_append.mp received with old | new
      · exact (tracks.highest.2 (Or.inr old)).trans (le_max_left _ _)
      · exact new ▸ le_max_right _ _

/-- A packet below the window changes nothing but the answer that it is a duplicate. -/
theorem Tracks.late {past : List Arrival} {a : Acker} (tracks : Tracks past a) {x : Arrival}
    (nonempty : 0 < x.numBytes) (before : x.seq < a.next) : Tracks (past ++ [x]) { a with isDup := true } := by
  have received := tracks.below x.seq before
  have bound := tracks.highest.2 (Or.inr received)
  have highest := tracks.highest_append x
  rw [max_eq_left bound] at highest
  refine ⟨tracks.positive_append nonempty, ?_, ?_, highest, tracks.mask, tracks.room, ?_⟩
  · intro claimed
    rcases received_append.mp claimed with old | same
    · exact tracks.missing old
    · simp only at same
      omega
  · exact fun k less => received_append.mpr (Or.inl (tracks.below k less))
  · intro k low high
    simp only at low
    rw [recorded_append, if_neg (by omega)]
    exact tracks.ring k low high

/-- What a call leaves behind: the arrivals with this one, the answer to
whether it came before, and the bytes of the packets that it completes. -/
theorem Tracks.updated {past : List Arrival} {a : Acker} (tracks : Tracks past a) {x : Arrival}
    (nonempty : 0 < x.numBytes) :
    ∃ next out, a.update x.seq x.numBytes = some (next, out) ∧ Tracks (past ++ [x]) next ∧
      (next.isDup = true ↔ Received past x.seq) ∧ a.next ≤ next.next ∧
      out = ∑ k ∈ Finset.Ico a.next next.next, recorded (past ++ [x]) k ∧
      ∀ k, a.next ≤ k → k ≤ next.maxseen + 1 → next.seen (k &&& next.wndmask) = recorded (past ++ [x]) k := by
  have cleared : Tracks past { a with isDup := false } := ⟨tracks.positive, tracks.missing, tracks.below,
    tracks.highest, tracks.mask, tracks.room, tracks.ring⟩
  obtain ⟨roomy, fits, sameNext, notDup⟩ := cleared.roomMade x.seq
  simp only [update]
  generalize ({ a with isDup := false } : Acker).makeRoom x.seq = b at *
  have ordered := roomy.next_le
  have positive := roomy.positive_append nonempty
  have highest := roomy.highest_append x
  simp only at sameNext notDup
  rw [← sameNext]
  by_cases above : b.maxseen < x.seq
  · have fresh : ¬Received past x.seq := by
      intro claimed
      have bound := roomy.highest.2 (Or.inr claimed)
      omega
    rw [max_eq_right above.le] at highest
    obtain ⟨next, out, taken, after, dup, advanced, bytes, held⟩ := receive_tracks (a := b.markHighest x.seq x.numBytes)
      true positive roomy.below highest roomy.mask fits (roomy.marked above fits) (fun _ _ => rfl)
      (by simp only [markHighest]; omega) le_rfl
    refine ⟨next, out, ?_, after, ?_, advanced, bytes, held⟩
    · have inside : ¬x.seq < (b.markHighest x.seq x.numBytes).next := by
        simp only [markHighest]
        omega
      have top : x.seq ≤ (b.markHighest x.seq x.numBytes).maxseen := le_rfl
      rw [decide_eq_true above, if_pos rfl, if_neg inside, if_pos top, taken]
    · simp [dup, markHighest, notDup, fresh]
  · rw [max_eq_left (not_lt.mp above)] at highest
    rw [decide_eq_false above, if_neg Bool.false_ne_true]
    by_cases before : x.seq < b.next
    · have late := roomy.late nonempty before
      refine ⟨_, _, if_pos before, late, ?_, le_rfl, ?_, late.ring⟩
      · simp [roomy.below x.seq before]
      · simp
    · obtain ⟨next, out, taken, after, dup, advanced, bytes, held⟩ := receive_tracks (x := x) false positive roomy.below
        highest roomy.mask roomy.room roomy.window
        (fun k other => by rw [recorded_append, if_neg (Ne.symm other)]) (not_lt.mp before) (not_lt.mp above)
      refine ⟨next, out, ?_, after, ?_, advanced, bytes, held⟩
      · rw [if_neg before, if_pos (not_lt.mp above), taken]
      · simp [dup, notDup, recorded_pos roomy.positive]

/-- The bytes delivered by one more call are those of the packets that it completes. -/
theorem Tracks.sum_sizeDelivered {past : List Arrival} {a next : Acker} {x : Arrival} (tracks : Tracks past a)
    (after : Tracks (past ++ [x]) next) (advanced : a.next ≤ next.next) :
    ∑ k ∈ Finset.range next.next, sizeDelivered (past ++ [x]) k =
      ∑ k ∈ Finset.range a.next, sizeDelivered past k +
        ∑ k ∈ Finset.Ico a.next next.next, recorded (past ++ [x]) k := by
  rw [← Finset.sum_range_add_sum_Ico _ advanced]
  congr 1
  · refine Finset.sum_congr rfl fun k member => ?_
    have before := Finset.mem_range.mp member
    exact sizeDelivered_of_complete (fun j upTo => tracks.below j (by omega)) x
  · refine Finset.sum_congr rfl fun k member => ?_
    obtain ⟨low, high⟩ := Finset.mem_Ico.mp member
    exact sizeDelivered_now ⟨a.next, low, tracks.missing⟩ fun j upTo => after.below j (by omega)

/-- One more packet after any run that is represented. -/
theorem Tracks.run_append {past : List Arrival} {a : Acker} {outs : List ℕ} {x : Arrival} (tracks : Tracks past a)
    (ran : machine.run init past = some (a, outs))
    (bytes : outs.sum = ∑ k ∈ Finset.range a.next, sizeDelivered past k) (nonempty : 0 < x.numBytes) :
    ∃ next outs, machine.run init (past ++ [x]) = some (next, outs) ∧ Tracks (past ++ [x]) next ∧
      (next.isDup = true ↔ Received past x.seq) ∧
      outs.sum = ∑ k ∈ Finset.range next.next, sizeDelivered (past ++ [x]) k := by
  obtain ⟨next, out, taken, after, dup, advanced, delivered, _⟩ := tracks.updated nonempty
  have stepped : machine.run a [x] = some (next, [out]) := by
    rw [Machine.run_cons (M := machine) taken]
    rfl
  refine ⟨next, outs ++ [out], ?_, after, dup, ?_⟩
  · rw [Machine.run_append ran, stepped]
    rfl
  · rw [List.sum_append, List.sum_singleton, bytes, delivered, tracks.sum_sizeDelivered after advanced]

theorem run_tracks (past : List Arrival) (positive : ∀ x ∈ past, 0 < x.numBytes) :
    ∃ a outs, machine.run init past = some (a, outs) ∧ Tracks past a ∧
      outs.sum = ∑ k ∈ Finset.range a.next, sizeDelivered past k := by
  induction past using List.reverseRecOn with
  | nil => exact ⟨init, [], rfl, init_tracks, rfl⟩
  | append_singleton past x ih =>
    obtain ⟨a, outs, ran, tracks, bytes⟩ := ih fun y member => positive y (by simp [member])
    obtain ⟨next, outs', ran', after, _, bytes'⟩ := tracks.run_append ran bytes (positive x (by simp))
    exact ⟨next, outs', ran', after, bytes'⟩

end Acker

end Ns2
