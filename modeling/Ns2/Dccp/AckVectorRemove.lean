import Ns2.Dccp.AckVectorAlter

namespace Ns2

namespace DCCPAckVector

variable {fresh : Fresh} {v w : DCCPAckVector} {items before after vect : List (BitVec 8)} {item : BitVec 8} {m : AckMap} {k d : ℕ}

theorem Holds.cut {place : ℕ} (holds : Holds v (before ++ after)) (nonempty : before ≠ [])
    (last : place = (v.head + (before.length - 1)) % v.maxSize) (seqTail : ℕ) :
    Holds { v with size := (place + v.maxSize - v.head) % v.maxSize + 1, tail := place, seqTail := seqTail } before where
  size := by
    have length := List.length_pos_of_ne_nil nonempty
    have fits := holds.laid.fits
    have inside := holds.head (by simp [nonempty])
    rw [List.length_append] at fits
    show (place + v.maxSize - v.head) % v.maxSize + 1 = before.length
    rw [last, Nat.add_sub_assoc inside.le, Nat.mod_add_mod, show v.head + (before.length - 1) + (v.maxSize - v.head) =
      before.length - 1 + v.maxSize by omega, Nat.add_mod_right, Nat.mod_eq_of_lt (by omega)]
    omega
  laid := holds.laid.left
  positive := holds.positive
  limit := holds.limit
  head _ := holds.head (by simp [nonempty])
  tail _ := last

theorem Encodes.emptied (encodes : Encodes v items m) : Encodes v.emptied [] ⟨m.head, [], Nat.zero_le _⟩ where
  holds := .empty rfl encodes.holds.positive encodes.holds.limit
  states := rfl
  head := encodes.head
  tail some := absurd rfl some
  bound := encodes.bound

/-- `removePackets` removes the numbers up to the given one from the map. -/
theorem Encodes.removePackets (encodes : Encodes v items m) (k : ℕ) :
    ∃ left, Encodes (v.removePackets k) left (m.removePackets k) := by
  unfold DCCPAckVector.removePackets
  by_cases older : v.size = 0 ∨ k < v.seqTail
  · rw [if_pos older]
    have same : m.removePackets k = m := by
      refine AckMap.ext rfl (List.take_of_length_le ?_)
      rcases older with none | low
      · rw [encodes.size_eq_zero.mp none]
        exact Nat.zero_le _
      · by_cases none : m.states = []
        · rw [none]
          exact Nat.zero_le _
        · have tail := encodes.tail none
          omega
    exact ⟨items, by rw [same]; exact encodes⟩
  rw [if_neg older]
  have none (all : m.head ≤ k) : m.removePackets k = ⟨m.head, [], Nat.zero_le _⟩ :=
    AckMap.ext rfl (by show m.states.take (m.head - k) = []; rw [Nat.sub_eq_zero_of_le all, List.take_zero])
  by_cases newer : v.seqHead < k
  · rw [if_pos newer]
    exact ⟨[], by rw [none (encodes.head ▸ newer).le]; exact encodes.emptied⟩
  rw [if_neg newer]
  have known : (m.get k).isSome := by
    rw [← Bool.not_eq_false, ← encodes.within_iff]
    rintro (none | above | below)
    · exact older (.inl none)
    · exact newer above
    · exact older (.inr below)
  obtain ⟨before, item, after, located⟩ := encodes.located known
  have low := located.low
  have high := located.high
  have fits := located.fits encodes
  have bound := encodes.bound
  have place := located.place encodes
  have kept : (itemStates items).take (m.head - k) =
      itemStates before ++ List.replicate (m.head - k - (itemStates before).length) (itemState item) := located.position.take
  have holds := encodes.holds
  rw [located.position.split] at holds
  have length : m.head + 1 ≤ k + m.states.length := (AckMap.get_isSome_iff.mp known).2
  have tail : ∀ v' : DCCPAckVector, v'.seqTail = k + 1 → (m.removePackets k).states ≠ [] →
      v'.seqTail + (m.removePackets k).states.length = m.head + 1 := by
    intro v' seqTail _
    show v'.seqTail + (m.states.take (m.head - k)).length = m.head + 1
    rw [seqTail, List.length_take]
    omega
  rw [located.found]
  dsimp only
  rw [sub32_eq (by omega) (by omega), place]
  by_cases part : 0 < m.head - (itemStates before).length - (m.head - (itemStates before).length - itemRunlen item) ∧
      m.head - (itemStates before).length ≠ k
  · -- a part of the item stays
    rw [if_pos part]
    obtain ⟨value, count⟩ := shortened_parts
      (show k - (m.head - (itemStates before).length - itemRunlen item) + 1 ≤ itemRunlen item by omega)
    generalize item - BitVec.ofNat 8 (k - (m.head - (itemStates before).length - itemRunlen item) + 1) = shorter at value count ⊢
    have written := holds.write shorter
    have split : before ++ shorter :: after = (before ++ [shorter]) ++ after := by simp
    rw [split] at written
    refine ⟨before ++ [shorter], written.cut (by simp) (by simp) (k + 1), ?_, encodes.head, tail _ rfl, bound⟩
    show _ = m.states.take (m.head - k)
    rw [← encodes.states, kept, itemStates_append, itemStates_cons, itemStates_nil, List.append_nil, value, itemCount, count]
    congr 2
    omega
  rw [if_neg part]
  by_cases first : (v.head + before.length) % v.maxSize = v.head
  · rw [if_pos first]
    have front : before = [] := by
      by_contra more
      have positive := List.length_pos_of_ne_nil more
      have inside := holds.head (by simp)
      have room := holds.laid.fits
      rw [List.length_append, List.length_cons] at room
      have apart : (v.head + before.length) % v.maxSize ≠ (v.head + 0) % v.maxSize :=
        Ring.place_ne (by omega) (by omega) (by omega)
      rw [Nat.add_zero, Nat.mod_eq_of_lt inside] at apart
      exact apart first
    subst front
    rw [itemStates_nil, List.length_nil] at part low high
    exact ⟨[], by rw [none (by omega)]; exact encodes.emptied⟩
  · rw [if_neg first]
    have more : before ≠ [] := by
      rintro rfl
      have inside := holds.head (by simp)
      exact first (by rw [List.length_nil, Nat.add_zero, Nat.mod_eq_of_lt inside])
    have length := List.length_pos_of_ne_nil more
    have positive := holds.positive
    have last : ((v.head + before.length) % v.maxSize + v.maxSize - 1) % v.maxSize = (v.head + (before.length - 1)) % v.maxSize := by
      rw [Nat.add_sub_assoc positive, Nat.mod_add_mod, show v.head + before.length + (v.maxSize - 1) =
        v.head + (before.length - 1) + v.maxSize by omega, Nat.add_mod_right]
    refine ⟨before, holds.cut more last (k + 1), ?_, encodes.head, tail _ rfl, bound⟩
    show _ = m.states.take (m.head - k)
    rw [← encodes.states, kept, show m.head - k - (itemStates before).length = 0 by omega, List.replicate_zero, List.append_nil]

theorem removePackets_ackvCons : (v.removePackets k).ackvCons = v.ackvCons := by
  unfold DCCPAckVector.removePackets
  split_ifs
  · rfl
  · rfl
  split
  · rfl
  split_ifs <;> rfl

/-- The number that the last item of a received vector ends with. -/
theorem seqEndOf_eq {seqStart : ℕ} (nonempty : vect ≠ []) (small : seqStart < 2 ^ 32) (fits : (itemStates vect).length ≤ seqStart + 1) :
    seqEndOf seqStart vect + (itemStates vect).length = seqStart + 1 := by
  induction vect generalizing seqStart with
  | nil => exact absurd rfl nonempty
  | cons item rest ih =>
    rw [itemStates_cons, List.length_append, List.length_replicate] at fits ⊢
    have count : itemCount item = itemRunlen item + 1 := rfl
    cases rest with
    | nil =>
      rw [itemStates_nil, List.length_nil] at fits ⊢
      rw [seqEndOf, sub32_eq (by omega) small]
      omega
    | cons next rest =>
      have more := itemStates_length (next :: rest)
      rw [List.length_cons] at more
      rw [seqEndOf, sub32_eq (by omega) small]
      have after := ih (by simp) (by omega) (show (itemStates (next :: rest)).length ≤ seqStart - (itemRunlen item + 1) + 1 by omega)
      omega

/-- What `setAckVector` leaves. -/
theorem Holds.setAckVector {seqStart : ℕ} {ene : BitVec 8} (holds : Holds v items) (deep : Deep d v) (length : vect.length ≤ maxAckvSize)
    (small : seqStart < 2 ^ 31) (fits : (itemStates vect).length ≤ seqStart + 1) :
    ∃ w, DCCPAckVector.setAckVector fresh vect seqStart ene (d + 1) v = (true, w) ∧
      Encodes w vect (.ofStates seqStart (itemStates vect)) ∧ w.ene = ene ∧ w.ackHist = [] ∧ w.ackvCons = v.ackvCons := by
  have limit : maxAckvSize = 65535 := rfl
  have states : (AckMap.ofStates seqStart (itemStates vect)).states = itemStates vect := by rw [AckMap.ofStates, dif_pos fits]
  have head : (AckMap.ofStates seqStart (itemStates vect)).head = seqStart := by rw [AckMap.ofStates, dif_pos fits]
  have roomy : ∀ {x : DCCPAckVector}, 0 < x.maxSize → x.maxSize ≤ maxAckvSize → vect.length ≤ x.maxSize → ∀ e,
      ∃ w, DCCPAckVector.setAckVector fresh vect seqStart ene (e + 1) x = (true, w) ∧
        Encodes w vect (.ofStates seqStart (itemStates vect)) ∧ w.ene = ene ∧ w.ackHist = [] ∧ w.ackvCons = x.ackvCons := by
    intro x positive most room e
    refine ⟨x.importVector vect seqStart ene, by rw [DCCPAckVector.setAckVector, if_neg (not_lt.mpr room)], ?_, rfl, rfl, rfl⟩
    refine ⟨⟨rfl, ⟨room, fun i inside => ?_⟩, positive, most, fun _ => positive, fun nonempty => ?_⟩, states.symm, head.symm,
      fun nonempty => ?_, by rw [head]; exact small⟩
    · show vect.getD ((0 + i) % x.maxSize) _ = vect[i]
      rw [Nat.zero_add, Nat.mod_eq_of_lt (by omega), List.getD, List.getElem?_eq_getElem inside]
      rfl
    · have some := List.length_pos_of_ne_nil nonempty
      show (vect.length + (2 ^ 16 - 1)) % 2 ^ 16 = (0 + (vect.length - 1)) % x.maxSize
      rw [Nat.zero_add, Nat.mod_eq_of_lt (show vect.length - 1 < x.maxSize by omega)]
      omega
    · rw [states] at nonempty ⊢
      rw [head]
      exact seqEndOf_eq (fun none => nonempty (by rw [none]; rfl)) (by omega) fits
  induction d generalizing v items with
  | zero =>
    rw [Deep, Nat.pow_zero, Nat.mul_one] at deep
    exact roomy holds.positive holds.limit (by omega) 0
  | succ d ih =>
    by_cases full : v.maxSize < vect.length
    · have cleared : Holds { v with size := 0 } [] := .empty rfl holds.positive holds.limit
      have depth : Deep (d + 1) { v with size := 0 } := deep
      obtain ⟨e, w, equal, doubled, deeper, held⟩ := depth.grow fresh length cleared full
      obtain rfl : d = e := Nat.succ.inj equal
      obtain ⟨x, done, encodes, echo, hist, cons⟩ := ih held deeper
      refine ⟨x, ?_, encodes, echo, hist, cons.trans (double_alike doubled).ackvCons⟩
      rw [DCCPAckVector.setAckVector, if_pos full]
      dsimp only
      rw [doubled]
      exact done
    · exact roomy holds.positive holds.limit (not_lt.mp full) (d + 1)

end DCCPAckVector

end Ns2
