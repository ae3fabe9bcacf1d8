import Ns2.Dccp.AckVectorAlter

namespace Ns2

namespace DCCPAckVector

variable {fresh : Fresh} {v w x : DCCPAckVector} {items : List (BitVec 8)} {m n : AckMap} {state : DCCPPacketState} {k d count runlen : ℕ}

/-- Items added above the head stand for more packets of one state. -/
theorem Encodes.added (encodes : Encodes v items m) (nonempty : m.states ≠ []) (short : runlen < 64) (some : 0 < count)
    (room : v.size + count ≤ v.maxSize) (bound : m.head + count * (runlen + 1) < 2 ^ 31) (higher : n.head = m.head + count * (runlen + 1))
    (states : n.states = List.replicate (count * (runlen + 1)) state ++ m.states) :
    Encodes (v.added state runlen count) (List.replicate count (packItem state runlen) ++ items) n := by
  have holds := encodes.holds
  have some' : items ≠ [] := by
    rintro rfl
    exact nonempty encodes.states.symm
  have length := List.length_pos_of_ne_nil some'
  have size := holds.size
  have tail := encodes.tail nonempty
  refine ⟨holds.added (by omega) some (by omega) (holds.head some') (holds.tailAt some'), ?_, ?_, fun _ => ?_, by omega⟩
  · rw [itemStates_append, itemStates_replicate state short, encodes.states, states]
  · show (if v.size ≠ 0 then (v.seqHead + (runlen + 1) * count) % 2 ^ 32 else v.seqHead) = n.head
    rw [if_pos (by omega), encodes.head, higher, Nat.mul_comm, Nat.mod_eq_of_lt (by omega)]
  · show v.seqTail + n.states.length = n.head + 1
    rw [states, List.length_append, List.length_replicate, higher]
    omega

/-- `addItems` for one item, on a vector that has items. -/
theorem Encodes.addItems (encodes : Encodes v items m) (nonempty : m.states ≠ []) (deep : Deep d v) (short : runlen < 64)
    (room : items.length + 1 ≤ maxAckvSize) (bound : m.head + (runlen + 1) < 2 ^ 31) (higher : n.head = m.head + (runlen + 1))
    (states : n.states = List.replicate (runlen + 1) state ++ m.states) :
    ∃ w, DCCPAckVector.addItems fresh state runlen 1 (d + 1) v = (true, w) ∧ Updated v w n := by
  obtain ⟨x, enlarged, enough, done⟩ := addItems_grow fresh state runlen encodes.holds deep room
  have encoded : Encodes (x.added state runlen 1) _ n := (enlarged.encodes encodes).added nonempty short Nat.one_pos enough (by omega)
    (by omega) (by rw [Nat.one_mul]; exact states)
  exact ⟨_, done, enlarged.updated ⟨⟨_, encoded⟩, Nat.le_refl _, rfl, rfl, rfl⟩⟩

/-- The size that `addPacket` needs. -/
def addSize (v : DCCPAckVector) (k : ℕ) (state : DCCPPacketState) : ℕ :=
  let dist := ((k : ℤ) - v.seqHead).bmod (2 ^ 32)
  if v.size = 0 then 1
  else if 1 < dist then v.size + (dist - 2).toNat / (runLengthMask + 1) + 1 + 1
  else if dist = 1 then
    if itemRunlen (v.vector v.head) < runLengthMask ∧ itemState (v.vector v.head) = state then v.size else v.size + 1
  else
    match v.getState k with
    | none => v.size
    | some currState => v.alterSize k (v.ackvCons currState state)

/-- The vector of one byte to which `addPacket` has to add its first packet
is left unwritten: the walk of `addItems` ends where it begins. -/
def Unwritten (v : DCCPAckVector) (state : DCCPPacketState) : Prop := v.size = 0 ∧ v.maxSize = 1 ∧ v.vector 0 ≠ packItem state 0

/-- What `addPacket` makes of an empty vector. -/
def begun (k : ℕ) (v : DCCPAckVector) : DCCPAckVector := { v with seqHead := k, seqTail := k, head := 0, tail := v.maxSize - 1 }

theorem Encodes.begun (encodes : Encodes v items m) (empty : v.size = 0) (written : ¬Unwritten v state) (small : k < 2 ^ 31) :
    Encodes ((v.begun k).added state 0 1) [packItem state 0] ⟨k, [state], Nat.le_add_left 1 k⟩ := by
  have positive := encodes.holds.positive
  have states : itemStates [packItem state 0] = [state] := by
    rw [← List.replicate_one, itemStates_replicate state (by omega)]
    rfl
  have started : Holds (v.begun k) [] := .empty empty positive encodes.holds.limit
  refine ⟨?_, states, if_neg (by simpa [DCCPAckVector.begun] using empty), fun _ => rfl, small⟩
  by_cases large : 1 < v.maxSize
  · have tail : TailAt (v.begun k) 0 := by
      show v.maxSize - 1 = (0 + v.maxSize + 0 - 1) % v.maxSize
      rw [Nat.zero_add, Nat.add_zero, Nat.mod_eq_of_lt (by omega)]
    exact started.added (show 0 + 1 ≤ v.maxSize by omega) Nat.one_pos large positive tail
  · have one : v.maxSize = 1 := by omega
    have same : v.vector 0 = packItem state 0 := by
      by_contra other
      exact written ⟨empty, one, other⟩
    have size : ((v.begun k).added state 0 1).size = 1 := by
      show v.size + 1 = 1
      rw [empty]
    refine ⟨size, ⟨positive, fun i inside => ?_⟩, positive, encodes.holds.limit, fun _ => ?_, fun _ => ?_⟩
    · obtain rfl : i = 0 := Nat.lt_one_iff.mp inside
      have unchanged : ((v.begun k).added state 0 1).vector 0 = v.vector 0 := by
        simp [DCCPAckVector.added, DCCPAckVector.begun, one, fillItems]
      simpa [DCCPAckVector.added, DCCPAckVector.begun, one, Nat.mod_one] using unchanged.trans same
    · show (0 + v.maxSize - 1) % v.maxSize < v.maxSize
      exact Nat.mod_lt _ positive
    · show v.maxSize - 1 = ((0 + v.maxSize - 1) % v.maxSize + 0) % v.maxSize
      rw [one]

theorem bmod_dist {a b : ℕ} (smallA : a < 2 ^ 31) (smallB : b < 2 ^ 31) : ((a : ℤ) - b).bmod (2 ^ 32) = (a : ℤ) - b := by
  rw [Int.bmod_def]
  split <;> omega

/-- The packets between the head and a packet above it, of which none was received. -/
theorem Encodes.skipped (fresh : Fresh) {skip : ℕ} (encodes : Encodes v items m) (nonempty : m.states ≠ []) (some : 0 < skip)
    (bound : m.head + skip < 2 ^ 31) (room : v.size + (skip - 1) / 64 + 1 ≤ v.maxSize) :
    ∃ w, Encodes w (packItem .notRecv ((skip - 1) % 64) :: (List.replicate ((skip - 1) / 64) (packItem .notRecv 63) ++ items))
        ⟨m.head + skip, List.replicate skip .notRecv ++ m.states, by have := m.fits; simp; omega⟩ ∧
      (DCCPAckVector.addItems fresh .notRecv ((skip - 1) % 64) 1 nesting
        (if 0 < (skip - 1) / 64 then (DCCPAckVector.addItems fresh .notRecv 63 ((skip - 1) / 64) nesting v).2 else v)).2 = w ∧
      w.maxSize = v.maxSize ∧ w.ene = v.ene ∧ w.ackHist = v.ackHist ∧ w.ackvCons = v.ackvCons := by
  have fits := m.fits
  have total : skip = (skip - 1) / 64 * 64 + ((skip - 1) % 64 + 1) := by omega
  have short : (skip - 1) % 64 < 64 := by omega
  generalize (skip - 1) / 64 = fulls at *
  generalize (skip - 1) % 64 = last at *
  -- the full items
  obtain ⟨x, encoded, done, size, ene, ackHist, ackvCons⟩ : ∃ x, Encodes x (List.replicate (fulls) (packItem .notRecv 63) ++ items)
      ⟨m.head + fulls * 64, List.replicate (fulls * 64) DCCPPacketState.notRecv ++ m.states, by simp; omega⟩ ∧
      (if 0 < fulls then (DCCPAckVector.addItems fresh .notRecv 63 (fulls) nesting v).2 else v) = x ∧
      x.maxSize = v.maxSize ∧ x.ene = v.ene ∧ x.ackHist = v.ackHist ∧ x.ackvCons = v.ackvCons := by
    by_cases full : 0 < fulls
    · rw [if_pos full, nesting, addItems_room (by omega)]
      exact ⟨_, encodes.added nonempty (by omega) full (by omega) (by omega) rfl rfl, rfl, rfl, rfl, rfl, rfl⟩
    · obtain rfl : fulls = 0 := by omega
      rw [if_neg full]
      exact ⟨v, ⟨encodes.holds, encodes.states, encodes.head, encodes.tail, encodes.bound⟩, rfl, rfl, rfl, rfl, rfl⟩
  have length : x.size = v.size + fulls := by
    rw [encoded.holds.size, encodes.holds.size, List.length_append, List.length_replicate, Nat.add_comm]
  rw [done, nesting, addItems_room (by omega)]
  refine ⟨_, encoded.added (by simp [nonempty]) (by omega) Nat.one_pos (by omega) ?_ ?_ ?_, rfl, size, ene, ackHist, ackvCons⟩
  · show m.head + fulls * 64 + _ < _
    omega
  · show m.head + skip = m.head + fulls * 64 + _
    omega
  · show List.replicate skip _ ++ _ = List.replicate _ _ ++ (List.replicate _ _ ++ _)
    rw [← List.append_assoc, ← List.replicate_add]
    congr 2
    omega

/-- `addPacket` of a packet beyond the next one, where there is room. -/
theorem Encodes.addAbove (encodes : Encodes v items m) (nonempty : m.states ≠ []) (above : m.head + 1 < k) (small : k < 2 ^ 31)
    (room : v.size + (k - m.head - 2) / 64 + 2 ≤ v.maxSize) :
    ∃ w, DCCPAckVector.addPacket fresh k state (d + 1) v = (true, w) ∧ Updated v w (m.extend k state (by omega)) := by
  have dist : ((k : ℤ) - v.seqHead).bmod (2 ^ 32) = (k : ℤ) - m.head := by rw [encodes.head, bmod_dist small encodes.bound]
  have fewer : ((k : ℤ) - m.head - 2).toNat = k - m.head - 1 - 1 := by omega
  obtain ⟨x, encoded, done, size, ene, ackHist, ackvCons⟩ := encodes.skipped fresh nonempty
    (show 0 < k - m.head - 1 by omega) (by omega) (by omega)
  have length : x.size + 1 ≤ x.maxSize := by
    have grown := encoded.holds.size
    have before := encodes.holds.size
    simp only [List.length_cons, List.length_append, List.length_replicate] at grown
    omega
  have last : Encodes (x.added state 0 1) _ (m.extend k state (by omega)) :=
    encoded.added (by simp [nonempty]) (by omega) Nat.one_pos length (by dsimp only; omega) (by simp only [AckMap.extend]; omega) rfl
  refine ⟨x.added state 0 1, ?_, ⟨⟨_, last⟩, size.ge, ene, ackHist, ackvCons⟩⟩
  rw [DCCPAckVector.addPacket]
  dsimp only
  rw [dist, if_neg (by rw [encodes.size_eq_zero]; exact nonempty), if_pos (by omega), fewer]
  rw [show runLengthMask + 1 = 64 from rfl, show runLengthMask = 63 from rfl, if_neg (by omega), done, nesting, addItems_room length]

/-- `addPacket` of the next packet. -/
theorem Encodes.addNext (encodes : Encodes v items m) (nonempty : m.states ≠ []) (next : k = m.head + 1) (small : k < 2 ^ 31)
    (room : v.addSize k state ≤ maxAckvSize) :
    ∃ w, DCCPAckVector.addPacket fresh k state (d + 1) v = (true, w) ∧ Updated v w (m.extend k state (by omega)) := by
  have dist : ((k : ℤ) - v.seqHead).bmod (2 ^ 32) = (k : ℤ) - m.head := by rw [encodes.head, bmod_dist small encodes.bound]
  have some : v.size ≠ 0 := by
    rw [Ne, encodes.size_eq_zero]
    exact nonempty
  have higher : (m.extend k state (by omega)).head = m.head + (0 + 1) := next
  have states : (m.extend k state (by omega)).states = List.replicate (0 + 1) state ++ m.states := by
    have none : k - m.head - 1 = 0 := by omega
    simp [AckMap.extend, none]
  rw [addSize] at room
  rw [DCCPAckVector.addPacket]
  dsimp only at room ⊢
  rw [dist, if_neg some, if_neg (by omega), if_pos (by omega)] at room ⊢
  split_ifs at room ⊢ with same
  · -- the first item is lengthened
    obtain ⟨item, rest, rfl⟩ := List.exists_cons_of_ne_nil (encodes.holds.ne_nil some)
    have holds : Holds v ([] ++ item :: rest) := encodes.holds
    have inside := holds.head (by simp)
    have place : v.vector v.head = item := by
      have stored := holds.place
      rwa [List.length_nil, Nat.add_zero, Nat.mod_eq_of_lt inside] at stored
    rw [place] at same ⊢
    obtain ⟨value, length⟩ := lengthened_parts same.1
    have written := holds.write (item + 1)
    rw [List.length_nil, Nat.add_zero, Nat.mod_eq_of_lt inside] at written
    refine ⟨_, rfl, ⟨⟨(item + 1) :: rest, ?_⟩, Nat.le_refl _, rfl, rfl, rfl⟩⟩
    refine ⟨⟨written.size, written.laid, written.positive, written.limit, written.head, written.tail⟩, ?_, rfl, fun _ => ?_, small⟩
    · rw [states, ← encodes.states, itemStates_cons, itemStates_cons, itemCount, itemCount, value, length, same.2, ← List.append_assoc,
        ← List.replicate_add, Nat.add_comm]
    · show v.seqTail + (m.extend k state (by omega)).states.length = k + 1
      have tail := encodes.tail nonempty
      rw [states, List.length_append, List.length_replicate]
      omega
  · exact encodes.addItems nonempty (deep_nesting encodes.holds.positive) (by omega) (by rw [← encodes.holds.size]; exact room)
      (by omega) higher states

/-- `addPacket` is `addPacket` of the map. -/
theorem Encodes.addPacket (encodes : Encodes v items m) (deep : Deep d v) (small : k < 2 ^ 31) (room : v.addSize k state ≤ maxAckvSize)
    (written : ¬Unwritten v state) :
    ∃ w, DCCPAckVector.addPacket fresh k state (d + 1) v = ((m.addPacket v.ackvCons k state).1, w) ∧
      Updated v w (m.addPacket v.ackvCons k state).2 := by
  have dist : ((k : ℤ) - v.seqHead).bmod (2 ^ 32) = (k : ℤ) - m.head := by rw [encodes.head, bmod_dist small encodes.bound]
  unfold AckMap.addPacket
  by_cases empty : m.states = []
  · rw [if_pos empty]
    have none := encodes.size_eq_zero.mpr empty
    have begun := encodes.begun none written small
    refine ⟨(v.begun k).added state 0 1, ?_, ⟨⟨_, begun⟩, Nat.le_refl _, rfl, rfl, rfl⟩⟩
    rw [DCCPAckVector.addPacket]
    dsimp only
    rw [if_pos none]
    exact addItems_room (by show v.size + 1 ≤ v.maxSize; have positive := encodes.holds.positive; omega)
  have some : v.size ≠ 0 := by
    rw [Ne, encodes.size_eq_zero]
    exact empty
  rw [if_neg empty]
  by_cases above : m.head < k
  · rw [dif_pos above]
    by_cases next : k = m.head + 1
    · exact encodes.addNext empty next small room
    -- packets are missing: the vector is doubled until it has room for them
    have need : items.length + (k - m.head - 2) / 64 + 2 ≤ maxAckvSize := by
      rw [addSize, dist, if_neg some, if_pos (by omega), show runLengthMask + 1 = 64 from rfl, show ((k : ℤ) - m.head - 2).toNat = k - m.head - 2 by omega,
        encodes.holds.size] at room
      exact room
    clear room written some
    induction d generalizing v with
    | zero =>
      rw [Deep, Nat.pow_zero, Nat.mul_one] at deep
      exact encodes.addAbove empty (by omega) small (by rw [encodes.holds.size]; omega)
    | succ d ih =>
      by_cases full : v.maxSize < v.size + (k - m.head - 2) / 64 + 1 + 1
      · obtain ⟨e, w, equal, doubled, deeper, held⟩ := deep.grow fresh (by rw [encodes.holds.size]; exact need) encodes.holds full
        obtain rfl : d = e := Nat.succ.inj equal
        have enlarged := (Enlarged.refl held).double encodes.holds doubled
        obtain ⟨x, done, updated⟩ := ih (enlarged.encodes encodes) deeper
          (by rw [(enlarged.encodes encodes).head, bmod_dist small encodes.bound])
        refine ⟨x, ?_, enlarged.updated updated⟩
        rw [DCCPAckVector.addPacket]
        dsimp only
        rw [dist, if_neg (by rw [encodes.size_eq_zero]; exact empty), if_pos (by omega), show runLengthMask + 1 = 64 from rfl,
          show ((k : ℤ) - m.head - 2).toNat = k - m.head - 2 by omega, if_pos full, doubled]
        exact done
      · exact encodes.addAbove empty (by omega) small (by omega)
  · -- the packet is combined with what is known
    rw [dif_neg above]
    have state_eq := encodes.getState k
    rw [addSize] at room
    rw [DCCPAckVector.addPacket]
    dsimp only at room ⊢
    rw [dist, if_neg some, if_neg (by omega), if_neg (by omega), state_eq] at room ⊢
    cases known : m.get k with
    | none => exact ⟨v, rfl, ⟨⟨items, encodes⟩, Nat.le_refl _, rfl, rfl, rfl⟩⟩
    | some old =>
      rw [known] at room
      obtain ⟨w, done, updated⟩ := encodes.alterState fresh (deep_nesting encodes.holds.positive) room
      rw [AckMap.alterState, known] at done updated
      refine ⟨w, ?_, updated⟩
      show ((DCCPAckVector.alterState fresh k (v.ackvCons old state) nesting v).1,
        (DCCPAckVector.alterState fresh k (v.ackvCons old state) nesting v).2.2) = _
      rw [nesting, done]

end DCCPAckVector

end Ns2
