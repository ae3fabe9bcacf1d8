import Mathlib.Data.List.Basic
import Ns2.Dccp.AckVector
import Ns2.Dccp.AckVectorItems
import Ns2.Library.RunLength

namespace Ns2

/-- What an ack vector is for: the states of the packets with consecutive
numbers, from the greatest one, `head`, downwards. -/
structure AckMap where
  head : ℕ
  states : List DCCPPacketState
  fits : states.length ≤ head + 1

namespace AckMap

variable {m : AckMap} {k n : ℕ} {state : DCCPPacketState}

/-- The state of a packet, if the map has its number. -/
def get (m : AckMap) (k : ℕ) : Option DCCPPacketState := if k ≤ m.head then m.states[m.head - k]? else none

theorem ext {m n : AckMap} (head : m.head = n.head) (states : m.states = n.states) : m = n := by
  cases m
  cases n
  cases head
  cases states
  rfl

def empty : AckMap := ⟨0, [], Nat.zero_le _⟩

/-- The map of a received vector. One that goes on below zero is not a map. -/
def ofStates (head : ℕ) (states : List DCCPPacketState) : AckMap :=
  if fits : states.length ≤ head + 1 then ⟨head, states, fits⟩ else ⟨head, [], Nat.zero_le _⟩

def set (m : AckMap) (k : ℕ) (state : DCCPPacketState) : AckMap :=
  ⟨m.head, m.states.set (m.head - k) state, by rw [List.length_set]; exact m.fits⟩

/-- A packet above the head, after those that are skipped. -/
def extend (m : AckMap) (k : ℕ) (state : DCCPPacketState) (above : m.head < k) : AckMap where
  head := k
  states := state :: (List.replicate (k - m.head - 1) .notRecv ++ m.states)
  fits := by
    have fits := m.fits
    simp only [List.length_cons, List.length_append, List.length_replicate]
    omega

/-- A new packet begins a map, extends it or is combined with what is known of it; the
answer is whether the map has its number afterwards. -/
def addPacket (cons : DCCPPacketState → DCCPPacketState → DCCPPacketState) (k : ℕ) (state : DCCPPacketState) (m : AckMap) :
    Bool × AckMap :=
  if m.states = [] then (true, ⟨k, [state], Nat.le_add_left 1 k⟩)
  else if above : m.head < k then (true, m.extend k state above)
  else match m.get k with
  | none => (false, m)
  | some old => (true, m.set k (cons old state))

def alterState (k : ℕ) (state : DCCPPacketState) (m : AckMap) : Bool × Option DCCPPacketState × AckMap :=
  match m.get k with
  | none => (false, none, m)
  | some old => (true, old, m.set k state)

/-- Without the numbers up to `k`. -/
def removePackets (k : ℕ) (m : AckMap) : AckMap :=
  ⟨m.head, m.states.take (m.head - k), (List.length_take_le' _ _).trans m.fits⟩

/-- The numbers of the map, each with its state, from the head downwards. -/
def descending (m : AckMap) : List (ℕ × DCCPPacketState) := m.states.mapIdx fun i state => (m.head - i, state)

theorem get_eq_some_iff : m.get k = some state ↔ k ≤ m.head ∧ m.states[m.head - k]? = some state := by
  unfold get
  split
  · rename_i below
    exact ⟨fun found => ⟨below, found⟩, And.right⟩
  · rename_i above
    exact ⟨fun found => absurd found (by simp), fun found => absurd found.1 above⟩

theorem get_isSome_iff : (m.get k).isSome ↔ k ≤ m.head ∧ m.head + 1 ≤ k + m.states.length := by
  unfold get
  split
  · rename_i below
    rw [Option.isSome_iff_ne_none, Ne, List.getElem?_eq_none_iff]
    omega
  · rename_i above
    exact ⟨fun found => absurd found (by simp), fun found => absurd found.1 above⟩

theorem get_above (above : m.head < k) : m.get k = none := by
  rw [← Option.not_isSome_iff_eq_none, get_isSome_iff]
  omega

theorem get_set (known : (m.get k).isSome) : (m.set k state).get = Function.update m.get k (some state) := by
  obtain ⟨below, inside⟩ := get_isSome_iff.mp known
  funext j
  by_cases same : j = k
  · subst same
    rw [Function.update_self, get_eq_some_iff]
    exact ⟨below, List.getElem?_set_self (by omega)⟩
  · rw [Function.update_of_ne same]
    unfold get set
    dsimp only
    split
    · rename_i small
      rw [List.getElem?_set_ne (by omega)]
    · rfl

theorem set_same (known : m.get k = some state) : m.set k state = m := by
  obtain ⟨_, found⟩ := get_eq_some_iff.mp known
  refine ext rfl ?_
  obtain ⟨inside, value⟩ := List.getElem?_eq_some_iff.mp found
  exact value ▸ List.set_getElem_self inside

/-- The plain meaning of a packet above the head: it extends the map, and
every number that is skipped is marked. -/
theorem get_extend (above : m.head < k) (j : ℕ) :
    (m.extend k state above).get j = if j = k then some state else if m.head < j ∧ j < k then some .notRecv else m.get j := by
  unfold get extend
  dsimp only
  by_cases same : j = k
  · subst same
    simp
  rw [if_neg same]
  by_cases skipped : m.head < j ∧ j < k
  · rw [if_pos skipped, if_pos skipped.2.le, List.getElem?_cons, if_neg (by omega), List.getElem?_append_left (by simp; omega),
      List.getElem?_replicate, if_pos (by omega)]
  rw [if_neg skipped]
  by_cases low : j ≤ m.head
  · rw [if_pos low, if_pos (by omega), List.getElem?_cons, if_neg (by omega), List.getElem?_append_right (by simp; omega)]
    congr 1
    simp
    omega
  · rw [if_neg low, if_neg (by omega)]

theorem get_removePackets (j : ℕ) : (m.removePackets k).get j = if j ≤ k then none else m.get j := by
  unfold get removePackets
  dsimp only
  by_cases low : j ≤ k
  · rw [if_pos low]
    split
    · exact List.getElem?_eq_none_iff.mpr ((List.length_take_le _ _).trans (by omega))
    · rfl
  · rw [if_neg low]
    split
    · exact List.getElem?_take_of_lt (by omega)
    · rfl

theorem descending_getElem? (i : ℕ) : m.descending[i]? = m.states[i]?.map fun state => (m.head - i, state) := List.getElem?_mapIdx

end AckMap

variable {state : DCCPPacketState} {n : ℕ} {item : BitVec 8}

theorem itemRunlen_lt (item : BitVec 8) : itemRunlen item < 64 := by
  revert item
  decide +kernel

theorem packItem_parts (state : DCCPPacketState) (short : n < 64) :
    itemState (packItem state n) = state ∧ itemRunlen (packItem state n) = n := by
  have all : ∀ n, n < 64 → ∀ state ∈ [DCCPPacketState.recv, .ecn, .reserved, .notRecv],
      itemState (packItem state n) = state ∧ itemRunlen (packItem state n) = n := by decide +kernel
  exact all n short state (by cases state <;> simp)

theorem addedItem_eq (state : DCCPPacketState) (short : n < 64) : addedItem state n = packItem state n := by
  have all : ∀ n, n < 64 → ∀ state ∈ [DCCPPacketState.recv, .ecn, .reserved, .notRecv], addedItem state n = packItem state n := by
    decide +kernel
  exact all n short state (by cases state <;> simp)

/-- A run that is not full is lengthened by adding one to its byte. -/
theorem lengthened_parts (short : itemRunlen item < runLengthMask) :
    itemState (item + 1) = itemState item ∧ itemRunlen (item + 1) = itemRunlen item + 1 := by
  revert item
  decide +kernel

/-- A run is shortened by subtracting from its byte. -/
theorem shortened_parts (short : n ≤ itemRunlen item) :
    itemState (item - BitVec.ofNat 8 n) = itemState item ∧ itemRunlen (item - BitVec.ofNat 8 n) = itemRunlen item - n := by
  have one : ∀ item : BitVec 8, 0 < itemRunlen item → itemState (item - 1) = itemState item ∧ itemRunlen (item - 1) = itemRunlen item - 1 := by
    decide +kernel
  induction n with
  | zero => exact (BitVec.sub_zero item).symm ▸ ⟨rfl, rfl⟩
  | succ n ih =>
    obtain ⟨state, run⟩ := ih (Nat.le_of_succ_le short)
    obtain ⟨state', run'⟩ := one (item - BitVec.ofNat 8 n) (by omega)
    rw [show item - BitVec.ofNat 8 (n + 1) = item - BitVec.ofNat 8 n - 1 by bv_omega]
    exact ⟨state'.trans state, by omega⟩

theorem sub32_eq {a b : ℕ} (less : b ≤ a) (small : a < 2 ^ 32) : sub32 a b = a - b := by
  unfold sub32
  rw [show a + 2 ^ 32 - b = a - b + 2 ^ 32 by omega, Nat.add_mod_right, Nat.mod_eq_of_lt (by omega)]

/-- The number of packets that an item stands for. -/
def itemCount (item : BitVec 8) : ℕ := itemRunlen item + 1

/-- The states that the bytes of a vector stand for, from its head downwards. -/
def itemStates (items : List (BitVec 8)) : List DCCPPacketState := RunLength.expand itemState itemCount items

@[simp] theorem itemStates_nil : itemStates [] = [] := rfl

@[simp] theorem itemStates_cons {items : List (BitVec 8)} :
    itemStates (item :: items) = List.replicate (itemCount item) (itemState item) ++ itemStates items := RunLength.expand_cons

@[simp] theorem itemStates_append {items more : List (BitVec 8)} : itemStates (items ++ more) = itemStates items ++ itemStates more :=
  RunLength.expand_append

theorem itemStates_replicate (state : DCCPPacketState) (short : n < 64) (count : ℕ) :
    itemStates (List.replicate count (packItem state n)) = List.replicate (count * (n + 1)) state := by
  obtain ⟨value, length⟩ := packItem_parts state short
  rw [itemStates, RunLength.expand_replicate, itemCount, value, length]

theorem itemStates_length (items : List (BitVec 8)) : items.length ≤ (itemStates items).length := by
  rw [itemStates, RunLength.length_expand]
  induction items with
  | nil => exact Nat.le_refl 0
  | cons item items ih =>
    rw [List.map_cons, List.sum_cons, List.length_cons, itemCount]
    omega

theorem itemStates_eq_nil {items : List (BitVec 8)} : itemStates items = [] ↔ items = [] := by
  constructor
  · intro none
    have length := itemStates_length items
    rw [none] at length
    exact List.length_eq_zero_iff.mp (Nat.le_zero.mp length)
  · rintro rfl
    rfl

namespace DCCPAckVector

variable {fresh : Fresh} {v w : DCCPAckVector} {items before after : List (BitVec 8)} {m : AckMap} {seqnum k : ℕ}

/-- The vector's bytes stand for the states of the map, and its sequence numbers for its ends. -/
structure Encodes (v : DCCPAckVector) (items : List (BitVec 8)) (m : AckMap) : Prop where
  holds : Holds v items
  states : itemStates items = m.states
  head : v.seqHead = m.head
  tail : m.states ≠ [] → v.seqTail + m.states.length = m.head + 1
  bound : m.head < 2 ^ 31

theorem Encodes.size_eq_zero (encodes : Encodes v items m) : v.size = 0 ↔ m.states = [] := by
  rw [encodes.holds.size, List.length_eq_zero_iff, ← encodes.states, itemStates_eq_nil]

theorem Encodes.within_iff (encodes : Encodes v items m) :
    (v.size = 0 ∨ v.seqHead < k ∨ k < v.seqTail) ↔ (m.get k).isSome = false := by
  rw [← Bool.not_eq_true, AckMap.get_isSome_iff, encodes.size_eq_zero, encodes.head]
  have fits := m.fits
  by_cases none : m.states = []
  · simp only [none, true_or, true_iff, not_and, List.length_nil]
    omega
  · have tail := encodes.tail none
    simp only [none, false_or]
    omega

theorem findFrom_eq {passed : List (BitVec 8)} {item : BitVec 8} {fuel seqStart : ℕ} (holds : Holds v (passed ++ before ++ item :: after))
    (enough : before.length < fuel) (small : seqStart < 2 ^ 32) (fits : (itemStates (before ++ item :: after)).length ≤ seqStart + 1)
    (low : seqnum + (itemStates before).length ≤ seqStart) (high : seqStart < seqnum + (itemStates before).length + itemCount item) :
    v.findFrom seqnum fuel ((v.head + passed.length) % v.maxSize) seqStart =
      some ((v.head + (passed ++ before).length) % v.maxSize, seqStart - (itemStates before).length,
        seqStart - (itemStates before).length - itemRunlen item) := by
  obtain ⟨fuel, rfl⟩ : ∃ f, fuel = f + 1 := ⟨fuel - 1, by omega⟩
  induction before generalizing passed fuel seqStart with
  | nil =>
    have here : v.vector ((v.head + passed.length) % v.maxSize) = item := by
      have split : Holds v (passed ++ item :: after) := by simpa using holds
      exact split.place
    simp only [List.nil_append, itemStates_nil, List.length_nil, itemStates_cons, List.length_append,
      List.length_replicate, itemCount, List.append_nil, Nat.sub_zero, Nat.add_zero] at fits low high ⊢
    rw [findFrom, here, sub32_eq (by omega) small]
    exact if_pos ⟨by omega, by omega⟩
  | cons first before ih =>
    have here : v.vector ((v.head + passed.length) % v.maxSize) = first := by
      have split : Holds v (passed ++ first :: (before ++ item :: after)) := by simpa using holds
      exact split.place
    have fit := holds.laid.fits
    have tail := holds.tail (by simp)
    have total : (passed ++ first :: before ++ item :: after).length = passed.length + before.length + after.length + 2 := by
      simp only [List.length_append, List.length_cons]
      omega
    rw [total] at fit tail
    simp only [List.cons_append, itemStates_cons, List.length_append, List.length_replicate, List.length_cons] at fits low high enough
    have run : itemCount first = itemRunlen first + 1 := rfl
    have onward : (v.head + passed.length + 1) % v.maxSize ≠ (v.tail + 1) % v.maxSize := by
      rw [tail, Nat.mod_add_mod, show v.head + passed.length + 1 = v.head + 1 + passed.length by omega,
        show v.head + (passed.length + before.length + after.length + 2 - 1) + 1 =
          v.head + 1 + (passed.length + before.length + after.length + 1) by omega]
      exact Ring.place_ne (by omega) (by omega) (by omega)
    rw [findFrom, here, sub32_eq (by omega) small]
    dsimp only
    rw [if_neg (by omega), Nat.mod_add_mod, if_neg onward, sub32_eq (by omega) (by omega)]
    obtain ⟨f, rfl⟩ : ∃ f, fuel = f + 1 := ⟨fuel - 1, by omega⟩
    have split : Holds v ((passed ++ [first]) ++ before ++ item :: after) := by simpa using holds
    have rest : v.findFrom seqnum (f + 1) ((v.head + (passed ++ [first]).length) % v.maxSize) (seqStart - itemRunlen first - 1) = _ :=
      ih split (by omega) (by omega) (by omega) (by omega) f (by omega)
    have length : v.head + passed.length + 1 = v.head + (passed ++ [first]).length := by simp; omega
    rw [length, rest]
    simp only [itemStates_cons, List.length_append, List.length_replicate, List.length_cons, List.length_nil, run]
    congr 3 <;> omega

end DCCPAckVector

end Ns2
