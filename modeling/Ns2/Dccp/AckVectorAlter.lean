import Ns2.Dccp.AckVectorStates

namespace Ns2

namespace DCCPAckVector

variable {fresh : Fresh} {v w x : DCCPAckVector} {items before after : List (BitVec 8)} {item : BitVec 8} {m n : AckMap}
  {state : DCCPPacketState} {k d count runlen : ℕ}

/-- The item of a number that the map has, as the code finds it. -/
structure Located (v : DCCPAckVector) (items : List (BitVec 8)) (m : AckMap) (k : ℕ) (before : List (BitVec 8)) (item : BitVec 8)
    (after : List (BitVec 8)) : Prop where
  position : RunLength.At itemState itemCount items (m.head - k) before item after
  below : k ≤ m.head
  state : m.get k = some (itemState item)
  found : v.findSeqNum k = some ((v.head + before.length) % v.maxSize, m.head - (itemStates before).length,
    m.head - (itemStates before).length - itemRunlen item)

theorem Located.low (located : Located v items m k before item after) : k + (itemStates before).length ≤ m.head := by
  have low : (itemStates before).length ≤ m.head - k := located.position.low
  have below := located.below
  omega

theorem Located.high (located : Located v items m k before item after) :
    m.head < k + (itemStates before).length + itemRunlen item + 1 := by
  have high : m.head - k < (itemStates before).length + itemCount item := located.position.high
  rw [itemCount] at high
  omega

/-- The code finds the item that a number belongs to. -/
theorem Encodes.locate (encodes : Encodes v items m) (below : k ≤ m.head)
    (position : RunLength.At itemState itemCount items (m.head - k) before item after) : Located v items m k before item after := by
  have fits := m.fits
  have bound := encodes.bound
  have low : (itemStates before).length ≤ m.head - k := position.low
  have high : m.head - k < (itemStates before).length + itemCount item := position.high
  have split := position.split
  have state : m.get k = some (itemState item) := by
    rw [AckMap.get_eq_some_iff, ← encodes.states]
    exact ⟨below, position.getElem?⟩
  have within : ¬(v.size = 0 ∨ v.seqHead < k ∨ k < v.seqTail) := by
    rw [encodes.within_iff, state]
    exact fun absent => Bool.false_ne_true absent.symm
  have holds : Holds v ([] ++ before ++ item :: after) := by
    rw [List.nil_append, ← split]
    exact encodes.holds
  have headIn := encodes.holds.head (by rw [split]; simp)
  have room := encodes.holds.laid.fits
  have whole : (itemStates (before ++ item :: after)).length ≤ m.head + 1 := by
    rw [← split, encodes.states]
    exact fits
  have length : before.length < items.length := by
    rw [split]
    simp
  have found : v.findFrom k v.maxSize ((v.head + [].length) % v.maxSize) m.head = _ :=
    findFrom_eq holds (by omega) (by omega) whole (by omega) (by omega)
  refine ⟨position, below, state, ?_⟩
  rw [List.length_nil, Nat.add_zero, Nat.mod_eq_of_lt headIn, List.nil_append] at found
  rw [findSeqNum, if_neg within, encodes.head]
  exact found

theorem Encodes.located (encodes : Encodes v items m) (known : (m.get k).isSome) :
    ∃ before item after, Located v items m k before item after := by
  obtain ⟨below, inside⟩ := AckMap.get_isSome_iff.mp known
  have position : m.head - k < (itemStates items).length := by
    rw [encodes.states]
    omega
  obtain ⟨before, item, after, located⟩ := RunLength.exists_at position
  exact ⟨before, item, after, encodes.locate below located⟩

theorem Located.place (encodes : Encodes v items m) (located : Located v items m k before item after) :
    v.vector ((v.head + before.length) % v.maxSize) = item := by
  have holds := encodes.holds
  rw [located.position.split] at holds
  exact holds.place

theorem Located.fits (encodes : Encodes v items m) (located : Located v items m k before item after) :
    (itemStates before).length + itemRunlen item ≤ m.head := by
  have fits := m.fits
  rw [← encodes.states, located.position.split, itemStates_append, itemStates_cons, List.length_append, List.length_append,
    List.length_replicate, itemCount] at fits
  omega

/-- `getState` reads the map. -/
theorem Encodes.getState (encodes : Encodes v items m) (k : ℕ) : v.getState k = m.get k := by
  unfold DCCPAckVector.getState
  by_cases out : v.size = 0 ∨ v.seqHead < k ∨ k < v.seqTail
  · rw [if_pos out]
    exact (Option.isSome_eq_false_iff.mp (encodes.within_iff.mp out) |> Option.isNone_iff_eq_none.mp).symm
  · rw [if_neg out]
    have known : (m.get k).isSome := by
      rw [← Bool.not_eq_false, ← encodes.within_iff]
      exact out
    obtain ⟨before, item, after, located⟩ := encodes.located known
    rw [located.found, Option.map_some, located.place encodes, located.state]

/-- How deep a call may nest for a vector to reach the largest size. -/
def Deep (d : ℕ) (v : DCCPAckVector) : Prop := maxAckvSize ≤ v.maxSize * 2 ^ d

theorem deep_nesting (positive : 0 < v.maxSize) : Deep 16 v := by
  have limit : maxAckvSize = 65535 := rfl
  rw [Deep, limit]
  omega

theorem Deep.double (deep : Deep (d + 1) v) (doubled : v.doubleMaxSize fresh = some w) : Deep d w := by
  have positive : 0 < 2 ^ d := Nat.two_pow_pos d
  rw [Deep, double_maxSize doubled]
  rw [Deep, Nat.pow_succ', ← Nat.mul_assoc] at deep
  rcases Nat.le_total (v.maxSize * 2) maxAckvSize with small | large
  · rwa [Nat.min_eq_left small]
  · rw [Nat.min_eq_right large]
    exact Nat.le_mul_of_pos_right _ positive

/-- A vector that has only been enlarged. -/
structure Enlarged (v x : DCCPAckVector) (items : List (BitVec 8)) : Prop where
  alike : Alike v x
  holds : Holds x items
  larger : v.maxSize ≤ x.maxSize

theorem Enlarged.refl (holds : Holds v items) : Enlarged v v items := ⟨⟨rfl, rfl, rfl, rfl, rfl, rfl⟩, holds, Nat.le_refl _⟩

theorem Enlarged.double (enlarged : Enlarged w x items) (holds : Holds v items) (doubled : v.doubleMaxSize fresh = some w) :
    Enlarged v x items := by
  have first := double_alike doubled
  have second := enlarged.alike
  have size := double_maxSize doubled
  have limit := holds.limit
  have larger := enlarged.larger
  refine ⟨⟨second.size.trans first.size, second.seqHead.trans first.seqHead, second.seqTail.trans first.seqTail,
    second.ene.trans first.ene, second.ackHist.trans first.ackHist, second.ackvCons.trans first.ackvCons⟩, enlarged.holds, ?_⟩
  omega

theorem Enlarged.encodes (enlarged : Enlarged v x items) (encodes : Encodes v items m) : Encodes x items m where
  holds := enlarged.holds
  states := encodes.states
  head := enlarged.alike.seqHead.trans encodes.head
  tail some := by
    rw [enlarged.alike.seqTail]
    exact encodes.tail some
  bound := encodes.bound

/-- Where there is no room, there is a larger vector. -/
theorem Deep.grow {need : ℕ} (fresh : Fresh) (deep : Deep d v) (small : need ≤ maxAckvSize) (holds : Holds v items) (full : v.maxSize < need) :
    ∃ e w, d = e + 1 ∧ v.doubleMaxSize fresh = some w ∧ Deep e w ∧ Holds w items := by
  cases d with
  | zero =>
    rw [Deep, Nat.pow_zero, Nat.mul_one] at deep
    omega
  | succ e =>
    obtain ⟨w, doubled⟩ := exists_double fresh (show v.maxSize ≠ maxAckvSize by omega)
    exact ⟨e, w, rfl, doubled, deep.double doubled, holds.double doubled⟩

theorem addItems_grow (fresh : Fresh) (state : DCCPPacketState) (runlen : ℕ) (holds : Holds v items) (deep : Deep d v) (small : items.length + count ≤ maxAckvSize) :
    ∃ x, Enlarged v x items ∧ x.size + count ≤ x.maxSize ∧
      addItems fresh state runlen count (d + 1) v = (true, x.added state runlen count) := by
  induction d generalizing v with
  | zero =>
    have room : v.size + count ≤ v.maxSize := by
      rw [Deep, Nat.pow_zero, Nat.mul_one] at deep
      rw [holds.size]
      omega
    exact ⟨v, .refl holds, room, addItems_room room⟩
  | succ d ih =>
    by_cases full : v.maxSize < v.size + count
    · obtain ⟨e, w, same, doubled, deeper, held⟩ := deep.grow fresh (by rw [holds.size]; exact small) holds full
      obtain rfl : d = e := Nat.succ.inj same
      obtain ⟨x, enlarged, room, done⟩ := ih held deeper
      refine ⟨x, enlarged.double holds doubled, room, ?_⟩
      rw [addItems, if_pos full, doubled]
      exact done
    · exact ⟨v, .refl holds, not_lt.mp full, addItems_room (not_lt.mp full)⟩

/-- After an operation that leaves the nonce echo, the history and the matrix alone. -/
structure Updated (v w : DCCPAckVector) (m : AckMap) : Prop where
  encodes : ∃ items, Encodes w items m
  larger : v.maxSize ≤ w.maxSize
  ene : w.ene = v.ene
  ackHist : w.ackHist = v.ackHist
  ackvCons : w.ackvCons = v.ackvCons

theorem Enlarged.updated (enlarged : Enlarged v x items) (updated : Updated x w m) : Updated v w m where
  encodes := updated.encodes
  larger := enlarged.larger.trans updated.larger
  ene := updated.ene.trans enlarged.alike.ene
  ackHist := updated.ackHist.trans enlarged.alike.ackHist
  ackvCons := updated.ackvCons.trans enlarged.alike.ackvCons

theorem itemStates_splitItem {seqStart seqEnd : ℕ} (state : DCCPPacketState) (some : itemRunlen item ≠ 0) (run : seqStart = seqEnd + itemRunlen item)
    (low : seqEnd ≤ k) (high : k ≤ seqStart) :
    itemStates (splitItem item state k seqStart seqEnd) =
      List.replicate (seqStart - k) (itemState item) ++ state :: List.replicate (k - seqEnd) (itemState item) := by
  have short := itemRunlen_lt item
  have parts (s : DCCPPacketState) {n : ℕ} (less : n < 64) : itemStates [addedItem s n] = List.replicate (n + 1) s := by
    rw [addedItem_eq s less, ← List.replicate_one, itemStates_replicate s less, Nat.one_mul]
  have two (a b : BitVec 8) : itemStates [a, b] = itemStates [a] ++ itemStates [b] := by simp
  have three (a b c : BitVec 8) : itemStates [a, b, c] = itemStates [a] ++ (itemStates [b] ++ itemStates [c]) := by simp
  unfold splitItem
  dsimp only
  split_ifs with first last
  · rw [two, parts state (by omega), parts _ (by omega), show seqStart - k = 0 by omega,
      show itemRunlen item - 1 + 1 = k - seqEnd by omega]
    rfl
  · rw [two, parts state (by omega), parts _ (by omega), show k - seqEnd = 0 by omega,
      show itemRunlen item - 1 + 1 = seqStart - k by omega]
    rfl
  · rw [three, parts state (by omega), parts _ (by omega), parts _ (by omega),
      show itemRunlen item - 1 - (k - seqEnd) + 1 = seqStart - k by omega,
      show itemRunlen item - 1 - (seqStart - k) + 1 = k - seqEnd by omega]
    rfl

theorem splitItem_length {seqStart seqEnd : ℕ} : ∃ new news, splitItem item state k seqStart seqEnd = new :: news := by
  unfold splitItem
  dsimp only
  split_ifs <;> exact ⟨_, _, rfl⟩

/-- The items that stand for one changed packet in the place of one item change the map at that packet. -/
theorem Located.changed {news : List (BitVec 8)} (encodes : Encodes v items m) (located : Located v items m k before item after)
    (holds : Holds w (before ++ news ++ after)) (seqHead : w.seqHead = v.seqHead) (seqTail : w.seqTail = v.seqTail)
    (values : itemStates news = List.replicate (m.head - (itemStates before).length - k) (itemState item) ++
      state :: List.replicate (k - (m.head - (itemStates before).length - itemRunlen item)) (itemState item)) :
    Encodes w (before ++ news ++ after) (m.set k state) := by
  have low := located.low
  have high := located.high
  have fits := located.fits encodes
  have changed := located.position.set state
  have count : itemCount item = itemRunlen item + 1 := rfl
  refine ⟨holds, ?_, seqHead.trans encodes.head, fun some => ?_, encodes.bound⟩
  · show _ = m.states.set (m.head - k) state
    rw [← encodes.states, itemStates_append, itemStates_append, values]
    refine Eq.trans ?_ changed.symm
    rw [show m.head - k - (RunLength.expand itemState itemCount before).length = m.head - (itemStates before).length - k by
        rw [itemStates]; omega,
      show itemCount item - (m.head - (itemStates before).length - k) - 1 = k - (m.head - (itemStates before).length - itemRunlen item) by
        omega]
    simp only [itemStates, List.append_assoc, List.cons_append]
  · have nonempty : m.states ≠ [] := fun none => some (by show m.states.set _ _ = []; rw [none]; rfl)
    show w.seqTail + (m.states.set (m.head - k) state).length = m.head + 1
    rw [seqTail, List.length_set]
    exact encodes.tail nonempty

/-- The size that `alterState` needs. -/
def alterSize (v : DCCPAckVector) (k : ℕ) (state : DCCPPacketState) : ℕ :=
  match v.findSeqNum k with
  | none => v.size
  | some (place, seqStart, seqEnd) =>
    let item := v.vector place
    if itemState item = state ∨ itemRunlen item = 0 then v.size else v.size + ((splitItem item state k seqStart seqEnd).length - 1)

theorem Encodes.findSeqNum_none (encodes : Encodes v items m) (unknown : m.get k = none) : v.findSeqNum k = none := by
  have out : v.size = 0 ∨ v.seqHead < k ∨ k < v.seqTail := encodes.within_iff.mpr (by rw [unknown]; rfl)
  exact if_pos out

/-- `alterState` changes the state of one packet of the map. -/
theorem Encodes.alterState (fresh : Fresh) (encodes : Encodes v items m) (deep : Deep d v) (room : v.alterSize k state ≤ maxAckvSize) :
    ∃ w, DCCPAckVector.alterState fresh k state (d + 1) v = ((m.alterState k state).1, (m.alterState k state).2.1, w) ∧
      Updated v w (m.alterState k state).2.2 := by
  unfold AckMap.alterState
  cases known : m.get k with
  | none =>
    refine ⟨v, ?_, ⟨⟨items, encodes⟩, Nat.le_refl _, rfl, rfl, rfl⟩⟩
    rw [DCCPAckVector.alterState, encodes.findSeqNum_none known]
  | some old =>
    obtain ⟨before, item, after, located⟩ := encodes.located (by rw [known]; rfl)
    obtain rfl : old = itemState item := Option.some.inj (known.symm.trans located.state)
    by_cases same : itemState item = state
    · -- nothing has to be changed
      subst same
      refine ⟨v, ?_, ⟨⟨items, ?_⟩, Nat.le_refl _, rfl, rfl, rfl⟩⟩
      · rw [DCCPAckVector.alterState, located.found]
        dsimp only
        rw [located.place encodes, if_pos rfl]
      · rw [AckMap.set_same known]
        exact encodes
    by_cases single : itemRunlen item = 0
    · -- the item stands for this packet alone
      have low := located.low
      have high := located.high
      have holds := encodes.holds
      rw [located.position.split] at holds
      have written := holds.write (addedItem state 0)
      refine ⟨{ v with vector := Function.update v.vector ((v.head + before.length) % v.maxSize) (addedItem state 0) }, ?_,
        ⟨⟨before ++ [addedItem state 0] ++ after, ?_⟩, Nat.le_refl _, rfl, rfl, rfl⟩⟩
      · rw [DCCPAckVector.alterState, located.found]
        dsimp only
        rw [located.place encodes, if_neg same, if_pos single]
      · refine located.changed encodes (by simpa using written) rfl rfl ?_
        rw [addedItem_eq state (by omega), ← List.replicate_one, itemStates_replicate state (by omega), Nat.one_mul,
          show m.head - (itemStates before).length - k = 0 by omega,
          show k - (m.head - (itemStates before).length - itemRunlen item) = 0 by omega]
        rfl
    -- the item is split
    have low := located.low
    have high := located.high
    have fits := located.fits encodes
    obtain ⟨new, news, split⟩ : ∃ new news, splitItem item state k (m.head - (itemStates before).length)
        (m.head - (itemStates before).length - itemRunlen item) = new :: news := splitItem_length
    have need : items.length + news.length ≤ maxAckvSize := by
      rw [alterSize, located.found] at room
      dsimp only at room
      rwa [located.place encodes, if_neg (by simp [same, single]), split, List.length_cons, Nat.add_sub_cancel, encodes.holds.size] at room
    have values := itemStates_splitItem state single
      (show m.head - (itemStates before).length = m.head - (itemStates before).length - itemRunlen item + itemRunlen item by omega)
      (show m.head - (itemStates before).length - itemRunlen item ≤ k by omega) (by omega)
    rw [split] at values
    have roomy : ∀ {x : DCCPAckVector}, Encodes x items m → x.size + news.length ≤ x.maxSize → ∀ e,
        ∃ w, DCCPAckVector.alterState fresh k state (e + 1) x = (true, some (itemState item), w) ∧ Updated x w (m.set k state) := by
      intro x encoded enough e
      have found := encoded.locate located.below located.position
      have holds := encoded.holds
      rw [located.position.split] at holds
      refine ⟨x.replaceItem ((x.head + before.length) % x.maxSize) (new :: news), ?_,
        ⟨⟨before ++ new :: news ++ after, ?_⟩, ?_, ?_, ?_, ?_⟩⟩
      · rw [DCCPAckVector.alterState, found.found]
        dsimp only
        rw [found.place encoded, if_neg same, if_neg single, split, List.length_cons, Nat.add_sub_cancel, if_neg (not_lt.mpr enough)]
      · exact found.changed encoded (holds.replaceItem enough) (by unfold replaceItem; dsimp only; split_ifs <;> rfl)
          (by unfold replaceItem; dsimp only; split_ifs <;> rfl) values
      all_goals
        unfold replaceItem
        dsimp only
        split_ifs <;> rfl
    clear room
    induction d generalizing v with
    | zero =>
      rw [Deep, Nat.pow_zero, Nat.mul_one] at deep
      exact roomy encodes (by rw [encodes.holds.size]; omega) 0
    | succ d ih =>
      by_cases full : v.maxSize < v.size + news.length
      · obtain ⟨e, w, equal, doubled, deeper, held⟩ := deep.grow fresh (by rw [encodes.holds.size]; exact need) encodes.holds full
        obtain rfl : d = e := Nat.succ.inj equal
        have enlarged := (Enlarged.refl held).double encodes.holds doubled
        obtain ⟨x, done, updated⟩ := ih (enlarged.encodes encodes) deeper ((enlarged.encodes encodes).locate located.below located.position)
        refine ⟨x, ?_, enlarged.updated updated⟩
        rw [DCCPAckVector.alterState, located.found]
        dsimp only
        rw [located.place encodes, if_neg same, if_neg single, split, List.length_cons, Nat.add_sub_cancel, if_pos full, doubled]
        dsimp only
        rw [done]
      · exact roomy encodes (not_lt.mp full) (d + 1)

end DCCPAckVector

end Ns2
