import Ns2.Dccp.AckVectorAdd
import Ns2.Dccp.AckVectorRemove
import Ns2.Dccp.AckVectorWalk
import Ns2.Library.Machine

namespace Ns2

/-- A partial map from sequence numbers to packet states, and its greatest number. -/
structure PacketStates where
  head : ℕ
  state : ℕ → Option DCCPPacketState

/-- What a vector is asked for. The calls of a walk can come at any time. -/
inductive AckVectorCall
  | addPacket (seqnum : ℕ) (state : DCCPPacketState)
  | alterState (seqnum : ℕ) (state : DCCPPacketState)
  | removePackets (seqnum : ℕ)
  | setAckVector (vect : List (BitVec 8)) (seqStart : ℕ) (ene : BitVec 8)
  | getState (seqnum : ℕ)
  | startPacketWalk
  | nextPacket
  | startReversePacketWalk
  | prevPacket
  | startIntervalWalk
  | nextInterval

/-- The result of a call and the packet state that it hands out. -/
abbrev AckVectorAnswer := Bool × Option DCCPPacketState

namespace PacketStates

/-- A packet above the head extends the map, and those that are skipped were not
received; a packet that the map has is combined with its state. -/
def addPacket (k : ℕ) (state : DCCPPacketState) (map : PacketStates) : PacketStates × AckVectorAnswer :=
  if map.state map.head = none then (⟨k, fun j => if j = k then some state else none⟩, true, none)
  else if map.head < k then
    (⟨k, fun j => if j = k then some state else if map.head < j ∧ j < k then some .notRecv else map.state j⟩, true, none)
  else match map.state k with
  | none => (map, false, none)
  | some old => (⟨map.head, Function.update map.state k (some (DCCPAckVector.cons old state))⟩, true, none)

/-- The plain meaning of each call. -/
def call (map : PacketStates) : AckVectorCall → PacketStates × AckVectorAnswer
  | .addPacket k state => map.addPacket k state
  | .alterState k state =>
    match map.state k with
    | none => (map, false, none)
    | some old => (⟨map.head, Function.update map.state k (some state)⟩, true, old)
  | .removePackets k => (⟨map.head, fun j => if j ≤ k then none else map.state j⟩, true, none)
  | .setAckVector vect seqStart _ => (⟨seqStart, fun j => if j ≤ seqStart then (itemStates vect)[seqStart - j]? else none⟩, true, none)
  | .getState k => (map, (map.state k).isSome, map.state k)
  | _ => (map, true, none)

def machine : Machine PacketStates AckVectorCall AckVectorAnswer where
  step map request := some (map.call request)

def empty : PacketStates := ⟨0, fun _ => none⟩

end PacketStates

/-- The same map as a list of states. -/
def AckMap.plain (m : AckMap) : PacketStates := ⟨m.head, m.get⟩

/-- What a call makes of the list, for any matrix. -/
def AckMap.call (cons : DCCPPacketState → DCCPPacketState → DCCPPacketState) (m : AckMap) : AckVectorCall → AckMap × AckVectorAnswer
  | .addPacket k state => ((m.addPacket cons k state).2, (m.addPacket cons k state).1, none)
  | .alterState k state => ((m.alterState k state).2.2, (m.alterState k state).1, (m.alterState k state).2.1)
  | .removePackets k => (m.removePackets k, true, none)
  | .setAckVector vect seqStart _ => (.ofStates seqStart (itemStates vect), true, none)
  | .getState k => (m, (m.get k).isSome, m.get k)
  | _ => (m, true, none)

namespace DCCPAckVector

variable {fresh : Fresh} {v w : DCCPAckVector} {items : List (BitVec 8)} {m : AckMap}

def call (fresh : Fresh) (v : DCCPAckVector) : AckVectorCall → DCCPAckVector × AckVectorAnswer
  | .addPacket seqnum state => let (result, v) := addPacket fresh seqnum state nesting v; (v, result, none)
  | .alterState seqnum state => let (result, old, v) := alterState fresh seqnum state nesting v; (v, result, old)
  | .removePackets seqnum => (v.removePackets seqnum, true, none)
  | .setAckVector vect seqStart ene => let (result, v) := setAckVector fresh vect seqStart ene nesting v; (v, result, none)
  | .getState seqnum => (v, (v.getState seqnum).isSome, v.getState seqnum)
  | .startPacketWalk => (v.startPacketWalk, true, none)
  | .nextPacket => (v.nextPacket.2, true, none)
  | .startReversePacketWalk => (v.startReversePacketWalk, true, none)
  | .prevPacket => (v.prevPacket.2, true, none)
  | .startIntervalWalk => (v.startIntervalWalk, true, none)
  | .nextInterval => (v.nextInterval.2, true, none)

def machine (fresh : Fresh) : Machine DCCPAckVector AckVectorCall AckVectorAnswer where
  step v request := some (v.call fresh request)

/-- Sequence numbers stay below `2^31`, and no call needs more than
`DCCP_MAX_ACKV_SIZE` bytes. -/
def Admitted (v : DCCPAckVector) : AckVectorCall → Prop
  | .addPacket seqnum state => seqnum < 2 ^ 31 ∧ v.addSize seqnum state ≤ maxAckvSize
  | .alterState seqnum state => seqnum < 2 ^ 31 ∧ v.alterSize seqnum state ≤ maxAckvSize
  | .setAckVector vect seqStart _ => seqStart < 2 ^ 31 ∧ (itemStates vect).length ≤ seqStart + 1 ∧ vect.length ≤ maxAckvSize
  | _ => True

/-- The call does not add the first packet to a vector that has one byte only. -/
def Written (v : DCCPAckVector) : AckVectorCall → Prop
  | .addPacket _ state => ¬v.Unwritten state
  | _ => True

instance (v : DCCPAckVector) : DecidablePred v.Admitted
  | .addPacket _ _ | .alterState _ _ | .setAckVector _ _ _ => inferInstanceAs (Decidable (_ ∧ _))
  | .removePackets _ | .getState _ | .startPacketWalk | .nextPacket | .startReversePacketWalk | .prevPacket | .startIntervalWalk
  | .nextInterval => inferInstanceAs (Decidable True)

instance (v : DCCPAckVector) : DecidablePred v.Written
  | .addPacket _ _ => inferInstanceAs (Decidable ¬(_ ∧ _))
  | .alterState _ _ | .setAckVector _ _ _ | .removePackets _ | .getState _ | .startPacketWalk | .nextPacket | .startReversePacketWalk
  | .prevPacket | .startIntervalWalk | .nextInterval => inferInstanceAs (Decidable True)

/-- The vector is the given map: its bytes, its sequence numbers and everything
that can be asked of it. -/
structure Represents (v : DCCPAckVector) (map : PacketStates) : Prop where
  getState : ∀ k, v.getState k = map.state k
  decodes : ∀ k, map.state k = if k ≤ v.seqHead then (itemStates v.copied)[v.seqHead - k]? else none
  head : v.seqHead = map.head
  tail : v.size ≠ 0 → v.tail = (v.head + (v.size - 1)) % v.maxSize
  runs : v.size ≠ 0 → v.seqTail ≤ v.seqHead ∧ v.seqHead - v.seqTail + 1 = (v.copied.map fun item => itemRunlen item + 1).sum
  walks : ∃ l : List (ℕ × DCCPPacketState),
    l.Pairwise (fun p q => q.1 < p.1) ∧ (∀ k state, (k, state) ∈ l ↔ map.state k = some state) ∧
    (∀ n, answers nextPacket n v.startPacketWalk = (List.range n).map fun i => l[i]?) ∧
    (∀ n, answers prevPacket n v.startReversePacketWalk = (List.range n).map fun i => l.reverse[i]?) ∧
    ∃ spans : List (BitVec 8 × ℕ × ℕ × DCCPPacketState), spans.flatMap packetsOf = l ∧ ∀ n, answers nextInterval n v.startIntervalWalk = (List.range n).map fun i => spans[i]?

theorem descending_sorted : m.descending.Pairwise fun p q => q.1 < p.1 := by
  have fits := m.fits
  rw [List.pairwise_iff_getElem]
  intro i j insideI insideJ less
  have length : m.descending.length = m.states.length := List.length_mapIdx
  simp only [AckMap.descending, List.getElem_mapIdx]
  omega

theorem mem_descending {k : ℕ} {state : DCCPPacketState} : (k, state) ∈ m.descending ↔ m.get k = some state := by
  have fits := m.fits
  rw [AckMap.get_eq_some_iff, List.mem_iff_getElem?]
  constructor
  · rintro ⟨i, found⟩
    rw [AckMap.descending_getElem?] at found
    obtain ⟨_, value, same⟩ := Option.map_eq_some_iff.mp found
    cases same
    obtain ⟨inside, _⟩ := List.getElem?_eq_some_iff.mp value
    refine ⟨Nat.sub_le _ _, ?_⟩
    rwa [show m.head - (m.head - i) = i by omega]
  · rintro ⟨below, value⟩
    refine ⟨m.head - k, ?_⟩
    rw [AckMap.descending_getElem?, value, Option.map_some, Nat.sub_sub_self below]

theorem Encodes.represents (encodes : Encodes v items m) : v.Represents m.plain where
  getState := encodes.getState
  decodes k := by
    rw [encodes.holds.copied, encodes.states, encodes.head]
    rfl
  head := encodes.head
  tail some := by
    rw [encodes.holds.size]
    exact encodes.holds.tail (encodes.holds.ne_nil some)
  runs some := by
    have fits := m.fits
    have nonempty : m.states ≠ [] := fun none => some (encodes.size_eq_zero.mpr none)
    have positive := List.length_pos_of_ne_nil nonempty
    have tail := encodes.tail nonempty
    have total : (items.map itemCount).sum = m.states.length := by
      rw [← encodes.states]
      exact RunLength.length_expand.symm
    rw [encodes.holds.copied, encodes.head]
    refine ⟨by omega, ?_⟩
    show _ = (items.map itemCount).sum
    omega
  walks := ⟨m.descending, descending_sorted, fun _ _ => mem_descending, encodes.nextPackets, encodes.prevPackets,
    intervals m.head items, encodes.intervals_packets, encodes.nextIntervals⟩

theorem plain_none : m.plain.state m.plain.head = none ↔ m.states = [] := by
  show m.get m.head = none ↔ _
  rw [← Option.not_isSome_iff_eq_none, AckMap.get_isSome_iff, ← List.length_eq_zero_iff]
  omega

theorem plain_set {k : ℕ} {old state : DCCPPacketState} (known : m.get k = some old) :
    (m.set k state).plain = ⟨m.head, Function.update m.get k (some state)⟩ := by
  rw [← AckMap.get_set (by rw [known]; rfl)]
  rfl

theorem plain_addPacket (m : AckMap) (k : ℕ) (state : DCCPPacketState) :
    m.plain.addPacket k state = ((m.addPacket cons k state).2.plain, (m.addPacket cons k state).1, none) := by
  unfold PacketStates.addPacket AckMap.addPacket
  by_cases empty : m.states = []
  · rw [if_pos (plain_none.mpr empty), if_pos empty]
    congr 2
    funext j
    show _ = if j ≤ k then ([state] : List _)[k - j]? else none
    by_cases same : j = k
    · subst same
      simp
    · rw [if_neg same]
      split
      · exact (List.getElem?_eq_none (by simp; omega)).symm
      · rfl
  rw [if_neg (mt plain_none.mp empty), if_neg empty]
  by_cases above : m.head < k
  · rw [dif_pos above]
    refine (if_pos above).trans ?_
    congr 2
    funext j
    exact (AckMap.get_extend above j).symm
  rw [dif_neg above]
  refine (if_neg above).trans ?_
  show (match m.get k with | none => _ | some old => _) = _
  cases known : m.get k with
  | none => rfl
  | some old =>
    dsimp only
    rw [plain_set known]
    rfl

theorem plain_alterState (m : AckMap) (k : ℕ) (state : DCCPPacketState) :
    m.plain.call (.alterState k state) = ((m.alterState k state).2.2.plain, (m.alterState k state).1, (m.alterState k state).2.1) := by
  show (match m.get k with | none => _ | some old => _) = _
  unfold AckMap.alterState
  cases known : m.get k with
  | none => rfl
  | some old =>
    dsimp only
    rw [plain_set known]
    rfl

theorem plain_removePackets (m : AckMap) (k : ℕ) : (m.removePackets k).plain = (m.plain.call (.removePackets k)).1 := by
  show (⟨_, _⟩ : PacketStates) = ⟨_, _⟩
  congr 1
  funext j
  exact AckMap.get_removePackets j

/-- A walk moves its own place only. -/
theorem Encodes.walked (encodes : Encodes v items m) (pWalk seqPWalk deltaPWalk iWalk seqIWalk : ℕ) (pWalking pReverse iWalking : Bool) :
    Encodes { v with pWalk := pWalk, seqPWalk := seqPWalk, deltaPWalk := deltaPWalk, pWalking := pWalking, pReverse := pReverse,
                     iWalk := iWalk, seqIWalk := seqIWalk, iWalking := iWalking } items m where
  holds := ⟨encodes.holds.size, encodes.holds.laid, encodes.holds.positive, encodes.holds.limit, encodes.holds.head, encodes.holds.tail⟩
  states := encodes.states
  head := encodes.head
  tail := encodes.tail
  bound := encodes.bound

/-- Each call does to the vector what it means for the list. -/
theorem Encodes.call (fresh : Fresh) {request : AckVectorCall} (encodes : Encodes v items m) (admitted : v.Admitted request)
    (written : v.Written request) :
    ∃ items', Encodes (v.call fresh request).1 items' (m.call v.ackvCons request).1 ∧ (v.call fresh request).1.ackvCons = v.ackvCons ∧
      (v.call fresh request).2 = (m.call v.ackvCons request).2 := by
  have deep := deep_nesting encodes.holds.positive
  cases request with
  | addPacket k state =>
    obtain ⟨small, room⟩ := admitted
    obtain ⟨w, done, updated⟩ : ∃ w, DCCPAckVector.addPacket fresh k state 17 v = _ ∧ Updated v w _ :=
      encodes.addPacket deep small room written
    obtain ⟨items', encodes'⟩ := updated.encodes
    rw [DCCPAckVector.call, nesting, done]
    exact ⟨items', encodes', updated.ackvCons, rfl⟩
  | alterState k state =>
    obtain ⟨_, room⟩ := admitted
    obtain ⟨w, done, updated⟩ := encodes.alterState fresh deep room
    obtain ⟨items', encodes'⟩ := updated.encodes
    rw [DCCPAckVector.call, nesting, done]
    exact ⟨items', encodes', updated.ackvCons, rfl⟩
  | removePackets k =>
    obtain ⟨left, encodes'⟩ := encodes.removePackets k
    exact ⟨left, encodes', removePackets_ackvCons, rfl⟩
  | setAckVector vect seqStart ene =>
    obtain ⟨small, fits, length⟩ := admitted
    obtain ⟨w, done, encodes', _, _, same⟩ : ∃ w, DCCPAckVector.setAckVector fresh vect seqStart ene 17 v = _ ∧ Encodes w vect _ ∧ _ :=
      encodes.holds.setAckVector deep length small fits
    rw [DCCPAckVector.call, nesting, done]
    exact ⟨vect, encodes', same, rfl⟩
  | getState k =>
    refine ⟨items, encodes, rfl, ?_⟩
    show (_, _) = (_, _)
    rw [encodes.getState k]
  | startPacketWalk => exact ⟨items, encodes.walked .., rfl, rfl⟩
  | startReversePacketWalk => exact ⟨items, encodes.walked .., rfl, rfl⟩
  | startIntervalWalk => exact ⟨items, encodes.walked .., rfl, rfl⟩
  | nextPacket =>
    refine ⟨items, ?_⟩
    rw [DCCPAckVector.call, DCCPAckVector.nextPacket]
    split <;> exact ⟨encodes.walked .., rfl, rfl⟩
  | prevPacket =>
    refine ⟨items, ?_⟩
    rw [DCCPAckVector.call, DCCPAckVector.prevPacket]
    split <;> exact ⟨encodes.walked .., rfl, rfl⟩
  | nextInterval =>
    refine ⟨items, ?_⟩
    rw [DCCPAckVector.call, DCCPAckVector.nextInterval]
    split <;> exact ⟨encodes.walked .., rfl, rfl⟩

/-- With the matrix of the constructor, a call means the same for the list as for the map. -/
theorem plain_call {request : AckVectorCall} (admitted : v.Admitted request) :
    m.plain.call request = ((m.call cons request).1.plain, (m.call cons request).2) := by
  cases request with
  | addPacket k state => exact plain_addPacket m k state
  | alterState k state => exact plain_alterState m k state
  | removePackets k => exact Prod.ext (plain_removePackets m k).symm rfl
  | setAckVector vect seqStart ene =>
    obtain ⟨_, fits, _⟩ := admitted
    refine Prod.ext ?_ rfl
    show (⟨_, _⟩ : PacketStates) = (AckMap.ofStates seqStart (itemStates vect)).plain
    rw [AckMap.ofStates, dif_pos fits]
    rfl
  | _ => rfl

/-- What the vector and the map are between two calls. -/
def Related (v : DCCPAckVector) (map : PacketStates) : Prop := ∃ items m, Encodes v items m ∧ v.ackvCons = cons ∧ map = m.plain

/-- A step of the simulation: each call does to the vector what it means for the map. -/
theorem Related.call (fresh : Fresh) {map : PacketStates} {request : AckVectorCall} (related : v.Related map) (admitted : v.Admitted request)
    (written : v.Written request) :
    (v.call fresh request).2 = (map.call request).2 ∧ Related (v.call fresh request).1 (map.call request).1 := by
  obtain ⟨items, m, encodes, matrix, rfl⟩ := related
  obtain ⟨items', encodes', same, answer⟩ := encodes.call fresh admitted written
  rw [matrix] at encodes' answer
  rw [plain_call admitted]
  exact ⟨answer, items', _, encodes', same.trans matrix, rfl⟩

theorem simulates (fresh : Fresh) (v : DCCPAckVector) (map : PacketStates) (request : AckVectorCall) (related : v.Related map)
    (fine : v.Admitted request ∧ v.Written request) (_ : True) :
    ∃ next mapNext answer, (machine fresh).step v request = some (next, answer) ∧
      PacketStates.machine.step map request = some (mapNext, answer) ∧ Related next mapNext := by
  obtain ⟨same, after⟩ := related.call fresh fine.1 fine.2
  refine ⟨(v.call fresh request).1, (map.call request).1, (v.call fresh request).2, rfl, ?_, after⟩
  show some (map.call request) = _
  rw [same]

theorem new_related {n : ℕ} (positive : 0 < n) (limit : n ≤ maxAckvSize) : Related (new fresh n) .empty := by
  refine ⟨[], .empty, ⟨new_holds n positive limit, rfl, rfl, fun some => absurd rfl some, by simp [AckMap.empty]⟩, rfl, ?_⟩
  show (⟨_, _⟩ : PacketStates) = ⟨_, _⟩
  congr 1
  funext j
  exact (ite_self none).symm

/-- Every run from a new vector answers as the map does and ends in a vector
that is the map. -/
theorem run_represents (fresh : Fresh) {n : ℕ} (positive : 0 < n) (limit : n ≤ maxAckvSize) (calls : List AckVectorCall)
    (admitted : (machine fresh).Along Admitted (new fresh n) calls) (written : (machine fresh).Along Written (new fresh n) calls) :
    ∃ v map answers, (machine fresh).run (new fresh n) calls = some (v, answers) ∧
      PacketStates.machine.run .empty calls = some (map, answers) ∧ v.Represents map := by
  obtain ⟨v, map, outs, ran, plain, items, m, encodes, _, rfl⟩ :=
    Machine.run_simulation (A := PacketStates.machine) (Q := fun _ _ => True) (simulates fresh) (new_related positive limit)
      (admitted.and written) (Machine.along_trivial _ _ _)
  exact ⟨v, m.plain, outs, ran, plain, encodes.represents⟩

theorem run_represents_sample : ∃ v map answers,
    (machine fun _ _ => 0).run (new (fun _ _ => 0) 1) [.setAckVector [0x03, 0xC1] 9 1, .addPacket 12 .ecn, .alterState 8 .notRecv,
      .addPacket 5 .recv, .startPacketWalk, .nextPacket, .removePackets 6, .getState 7] = some (v, answers) ∧
    PacketStates.machine.run .empty [.setAckVector [0x03, 0xC1] 9 1, .addPacket 12 .ecn, .alterState 8 .notRecv,
      .addPacket 5 .recv, .startPacketWalk, .nextPacket, .removePackets 6, .getState 7] = some (map, answers) ∧ v.Represents map :=
  run_represents (fun _ _ => 0) (by decide) (by decide) _ (by decide +kernel) (by decide +kernel)

/-- The byte of a vector of size one stays what it happened to be: the packet
received first counts as not received. -/
theorem one_byte_unwritten :
    (machine fun _ _ => 0xC0).Along Admitted (new (fun _ _ => 0xC0) 1) [.addPacket 5 .recv, .getState 5] ∧
    ((machine fun _ _ => 0xC0).run (new (fun _ _ => 0xC0) 1) [.addPacket 5 .recv, .getState 5]).map Prod.snd =
      some [(true, none), (true, some .notRecv)] ∧
    (PacketStates.machine.run .empty [.addPacket 5 .recv, .getState 5]).map Prod.snd = some [(true, none), (true, some .recv)] ∧
    ¬(addPacket (fun _ _ => 0xC0) 5 .recv nesting (new (fun _ _ => 0xC0) 1)).2.Represents (PacketStates.empty.addPacket 5 .recv).1 := by
  refine ⟨by decide +kernel, by decide +kernel, by decide +kernel, ?_⟩
  intro represents
  exact absurd (represents.getState 5) (by decide +kernel)

end DCCPAckVector

end Ns2
