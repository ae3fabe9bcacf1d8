import Ns2.Dccp.AckVector

namespace Ns2

namespace DCCPAckVector

variable {fresh : Fresh} {v w : DCCPAckVector} {items before after : List (BitVec 8)} {item : BitVec 8}

/-- The bytes of a vector, from its head to its tail. -/
structure Holds (v : DCCPAckVector) (items : List (BitVec 8)) : Prop where
  size : v.size = items.length
  laid : Ring.Laid v.maxSize v.vector v.head items
  positive : 0 < v.maxSize
  limit : v.maxSize ≤ maxAckvSize
  head : items ≠ [] → v.head < v.maxSize
  tail : items ≠ [] → v.tail = (v.head + (items.length - 1)) % v.maxSize

theorem Holds.copied (holds : Holds v items) : v.copied = items := by
  refine List.ext_getElem (by simp [DCCPAckVector.copied, holds.size]) ?_
  intro i _ inside
  simp only [DCCPAckVector.copied, List.getElem_map, List.getElem_range]
  exact holds.laid.stored i inside

theorem Holds.empty (size : v.size = 0) (positive : 0 < v.maxSize) (limit : v.maxSize ≤ maxAckvSize) : Holds v [] where
  size := size
  laid := .nil _ _ _
  positive := positive
  limit := limit
  head := fun some => absurd rfl some
  tail := fun some => absurd rfl some

theorem Holds.ne_nil (holds : Holds v items) (some : v.size ≠ 0) : items ≠ [] := by
  rintro rfl
  exact some holds.size

theorem new_holds (initialSize : ℕ) (positive : 0 < initialSize) (limit : initialSize ≤ maxAckvSize) :
    Holds (new fresh initialSize) [] := .empty rfl positive limit

theorem double_maxSize (doubled : v.doubleMaxSize fresh = some w) : w.maxSize = min (v.maxSize * 2) maxAckvSize := by
  unfold doubleMaxSize at doubled
  by_cases full : v.maxSize = maxAckvSize
  · rw [if_pos full] at doubled
    cases doubled
  · rw [if_neg full] at doubled
    cases Option.some.inj doubled
    dsimp only
    split
    · rename_i grown
      exact (Nat.min_eq_right grown.le).symm
    · rename_i grown
      exact (Nat.min_eq_left (not_lt.mp grown)).symm

/-- Doubling lays the same bytes out anew. -/
theorem Holds.double (holds : Holds v items) (doubled : v.doubleMaxSize fresh = some w) : Holds w items := by
  have fits := holds.laid.fits
  have limit := holds.limit
  have positive := holds.positive
  have size := double_maxSize doubled
  have room : items.length ≤ w.maxSize := by omega
  have some : items ≠ [] → 0 < v.size := fun nonempty => by rw [holds.size]; exact List.length_pos_of_ne_nil nonempty
  refine ⟨?_, ⟨room, ?_⟩, by omega, by omega, ?_, ?_⟩ <;> unfold doubleMaxSize at doubled <;> split at doubled <;>
    cases doubled <;> dsimp only at room ⊢
  · exact holds.size
  · intro i inside
    have nonempty : items ≠ [] := List.ne_nil_of_length_pos (by omega)
    rw [if_pos (some nonempty), Nat.zero_add, Nat.mod_eq_of_lt (by omega), if_pos (by rw [holds.size]; omega)]
    exact holds.laid.stored i inside
  · intro nonempty
    have length := List.length_pos_of_ne_nil nonempty
    rw [if_pos (some nonempty)]
    omega
  · intro nonempty
    have length := List.length_pos_of_ne_nil nonempty
    rw [if_pos (some nonempty), if_pos (some nonempty), Nat.zero_add, Nat.mod_eq_of_lt (by omega), holds.size]

theorem exists_double (fresh : Fresh) (small : v.maxSize ≠ maxAckvSize) : ∃ w, v.doubleMaxSize fresh = some w := by
  unfold doubleMaxSize
  rw [if_neg small]
  exact ⟨_, rfl⟩

/-- All that is not about where the bytes lie. -/
structure Alike (v w : DCCPAckVector) : Prop where
  size : w.size = v.size
  seqHead : w.seqHead = v.seqHead
  seqTail : w.seqTail = v.seqTail
  ene : w.ene = v.ene
  ackHist : w.ackHist = v.ackHist
  ackvCons : w.ackvCons = v.ackvCons

theorem double_alike (doubled : v.doubleMaxSize fresh = some w) : Alike v w := by
  unfold doubleMaxSize at doubled
  split at doubled <;> cases doubled
  exact ⟨rfl, rfl, rfl, rfl, rfl, rfl⟩

theorem moveItems_eq {place maxSize n fuel src dst : ℕ} {vector : ℕ → BitVec 8} (enough : n ≤ fuel) (inside : src < maxSize)
    (apart : ∀ j, j < n → (src + j) % maxSize ≠ place) (ends : (src + n) % maxSize = place) :
    moveItems place maxSize fuel src dst vector = Ring.moves maxSize vector src dst n := by
  induction n generalizing fuel src dst vector with
  | zero =>
    have here : src = place := by rwa [Nat.add_zero, Nat.mod_eq_of_lt inside] at ends
    cases fuel with
    | zero => rfl
    | succ fuel => rw [moveItems, if_pos here, Ring.moves]
  | succ n ih =>
    obtain ⟨fuel, rfl⟩ : ∃ f, fuel = f + 1 := ⟨fuel - 1, by omega⟩
    have before : src ≠ place := by
      have first := apart 0 (Nat.succ_pos n)
      rwa [Nat.add_zero, Nat.mod_eq_of_lt inside] at first
    rw [moveItems, if_neg before, Ring.moves]
    refine ih (by omega) (Nat.mod_lt _ (by omega)) ?_ ?_
    · intro j less
      rw [Nat.mod_add_mod, Nat.add_assoc, Nat.add_comm 1]
      exact apart (j + 1) (by omega)
    · rw [Nat.mod_add_mod, Nat.add_assoc, Nat.add_comm 1]
      exact ends

theorem fillItems_eq {head maxSize n fuel walker : ℕ} {vector : ℕ → BitVec 8} (enough : n ≤ fuel) (inside : walker < maxSize)
    (apart : ∀ j, j < n → (walker + j) % maxSize ≠ head) (ends : (walker + n) % maxSize = head) :
    fillItems item head maxSize fuel walker vector = Ring.writes maxSize vector walker (List.replicate n item) := by
  induction n generalizing fuel walker vector with
  | zero =>
    have here : walker = head := by rwa [Nat.add_zero, Nat.mod_eq_of_lt inside] at ends
    cases fuel with
    | zero => rfl
    | succ fuel => rw [fillItems, if_pos here, List.replicate_zero, Ring.writes]
  | succ n ih =>
    obtain ⟨fuel, rfl⟩ : ∃ f, fuel = f + 1 := ⟨fuel - 1, by omega⟩
    have before : walker ≠ head := by
      have first := apart 0 (Nat.succ_pos n)
      rwa [Nat.add_zero, Nat.mod_eq_of_lt inside] at first
    rw [fillItems, if_neg before, List.replicate_succ, Ring.writes]
    refine ih (by omega) (Nat.mod_lt _ (by omega)) ?_ ?_
    · intro j less
      rw [Nat.mod_add_mod, Nat.add_assoc, Nat.add_comm 1]
      exact apart (j + 1) (by omega)
    · rw [Nat.mod_add_mod, Nat.add_assoc, Nat.add_comm 1]
      exact ends

theorem back_mod {head n : ℕ} (inside : head < v.maxSize) (less : n ≤ v.maxSize) :
    ((head + v.maxSize - n) % v.maxSize + n) % v.maxSize = head := by
  rw [Nat.mod_add_mod, Nat.sub_add_cancel (by omega), Nat.add_mod_right, Nat.mod_eq_of_lt inside]

theorem back_apart {head n j : ℕ} (inside : head < v.maxSize) (less : n < v.maxSize) (early : j < n) :
    ((head + v.maxSize - n) % v.maxSize + j) % v.maxSize ≠ head := by
  have apart : (head + v.maxSize - n + j) % v.maxSize ≠ (head + v.maxSize - n + n) % v.maxSize :=
    Ring.place_ne (by omega) less (by omega)
  rwa [Nat.sub_add_cancel (by omega), Nat.add_mod_right, Nat.mod_eq_of_lt inside, ← Nat.mod_add_mod] at apart

/-- Where an empty vector or a vector with items has its tail. -/
def TailAt (v : DCCPAckVector) (length : ℕ) : Prop := v.tail = (v.head + v.maxSize + length - 1) % v.maxSize

theorem Holds.tailAt (holds : Holds v items) (nonempty : items ≠ []) : TailAt v items.length := by
  have length := List.length_pos_of_ne_nil nonempty
  rw [TailAt, holds.tail nonempty, show v.head + v.maxSize + items.length - 1 = v.head + (items.length - 1) + v.maxSize by omega,
    Nat.add_mod_right]

variable {state : DCCPPacketState} {runlen count depth : ℕ}

/-- What `addItems` gives where there is room. -/
def added (state : DCCPPacketState) (runlen count : ℕ) (v : DCCPAckVector) : DCCPAckVector :=
  let newHead := (v.head + v.maxSize - count) % v.maxSize
  { v with
    seqHead := if v.size ≠ 0 then (v.seqHead + (runlen + 1) * count) % 2 ^ 32 else v.seqHead
    vector := fillItems (packItem state runlen) v.head v.maxSize v.maxSize newHead v.vector
    size := v.size + count
    head := newHead }

theorem addItems_room (room : v.size + count ≤ v.maxSize) :
    addItems fresh state runlen count (depth + 1) v = (true, v.added state runlen count) := by
  rw [addItems, if_neg (not_lt.mpr room)]
  rfl

theorem Holds.added (holds : Holds v items) (room : items.length + count ≤ v.maxSize) (some : 0 < count) (less : count < v.maxSize)
    (inside : v.head < v.maxSize) (tail : TailAt v items.length) :
    Holds (v.added state runlen count) (List.replicate count (packItem state runlen) ++ items) := by
  have place : (v.head + v.maxSize - count) % v.maxSize < v.maxSize := Nat.mod_lt _ holds.positive
  refine ⟨?_, ?_, holds.positive, holds.limit, fun _ => place, fun _ => ?_⟩
  · show v.size + count = _
    rw [holds.size, List.length_append, List.length_replicate, Nat.add_comm]
  · show Ring.Laid v.maxSize (fillItems _ _ _ _ _ _) ((v.head + v.maxSize - count) % v.maxSize) _
    rw [fillItems_eq (n := count) less.le place (fun j early => back_apart inside less early) (back_mod inside less.le)]
    have shifted : Ring.Laid v.maxSize v.vector ((v.head + v.maxSize - count) % v.maxSize + count) items :=
      holds.laid.congr (by rw [back_mod inside less.le, Nat.mod_eq_of_lt inside])
    obtain ⟨junk, length, laid⟩ := shifted.extend_low room
    have written := Ring.Laid.writes [] junk items (List.replicate count (packItem state runlen)) laid (by simpa using length.symm)
    simpa [Nat.mod_eq_of_lt place] using written
  · show v.tail = _
    rw [tail, List.length_append, List.length_replicate]
    show _ = ((v.head + v.maxSize - count) % v.maxSize + (count + items.length - 1)) % v.maxSize
    rw [Nat.mod_add_mod]
    congr 1
    omega

theorem Holds.write (holds : Holds v (before ++ item :: after)) (new : BitVec 8) :
    Holds { v with vector := Function.update v.vector ((v.head + before.length) % v.maxSize) new } (before ++ new :: after) where
  size := by rw [holds.size]; simp
  laid := holds.laid.write_head new
  positive := holds.positive
  limit := holds.limit
  head _ := holds.head (by simp)
  tail _ := by
    have tail := holds.tail (by simp)
    simpa using tail

theorem Holds.place (holds : Holds v (before ++ item :: after)) : v.vector ((v.head + before.length) % v.maxSize) = item := by
  have stored := holds.laid.stored before.length (by simp)
  simpa using stored

/-- The items that replace one item take its place. -/
theorem Holds.replaceItem {new : BitVec 8} {news : List (BitVec 8)} (holds : Holds v (before ++ item :: after))
    (room : v.size + news.length ≤ v.maxSize) :
    Holds (v.replaceItem ((v.head + before.length) % v.maxSize) (new :: news)) (before ++ new :: news ++ after) := by
  have nonempty : before ++ item :: after ≠ [] := by simp
  have inside := holds.head nonempty
  have fits := holds.laid.fits
  have size := holds.size
  have tail := holds.tail nonempty
  have length : (before ++ item :: after).length = before.length + after.length + 1 := by simp; omega
  have total : (before ++ new :: news ++ after).length = before.length + after.length + 1 + news.length := by simp; omega
  rw [length] at fits size tail
  have grown : v.size + news.length = (before ++ new :: news ++ after).length := by omega
  -- the memory from the new head on, when the head moves
  have lower : Ring.Laid v.maxSize v.vector ((v.head + v.maxSize - news.length) % v.maxSize + news.length) (before ++ item :: after) :=
    holds.laid.congr (by rw [back_mod inside (by omega), Nat.mod_eq_of_lt inside])
  have newPlace : (v.head + v.maxSize - news.length) % v.maxSize < v.maxSize := Nat.mod_lt _ holds.positive
  have newTail : v.tail = ((v.head + v.maxSize - news.length) % v.maxSize + ((before ++ new :: news ++ after).length - 1)) % v.maxSize := by
    rw [tail, total, Nat.mod_add_mod,
      show v.head + v.maxSize - news.length + (before.length + after.length + 1 + news.length - 1) =
        v.head + (before.length + after.length + 1 - 1) + v.maxSize by omega, Nat.add_mod_right]
  unfold DCCPAckVector.replaceItem
  dsimp only [List.length_cons, Nat.add_sub_cancel]
  split_ifs with atTail atHead
  · -- the item is the last one
    have last : after = [] := by
      by_contra more
      have positive := List.length_pos_of_ne_nil more
      rw [tail] at atTail
      exact Ring.place_ne (by omega) (by omega) (by omega) atTail
    subst last
    have memory : Ring.Laid v.maxSize v.vector v.head (before ++ [item]) := holds.laid
    obtain ⟨junk, junkLength, laid⟩ := memory.extend_high (c := news.length) (by rw [← holds.size]; omega)
    have written := Ring.Laid.writes before (item :: junk) [] (new :: news) (by simpa using laid) (by simp [junkLength])
    refine ⟨grown, by simpa using written, holds.positive, holds.limit, fun _ => inside, fun _ => ?_⟩
    show (v.tail + news.length) % v.maxSize = _
    rw [tail, total, Nat.mod_add_mod]
    congr 1
    simp
    omega
  · -- the item is the first one
    have first : before = [] := by
      by_contra more
      have positive := List.length_pos_of_ne_nil more
      have apart : (v.head + before.length) % v.maxSize ≠ (v.head + 0) % v.maxSize :=
        Ring.place_ne (by omega) (by omega) (by omega)
      rw [Nat.add_zero, Nat.mod_eq_of_lt inside] at apart
      exact apart atHead
    subst first
    obtain ⟨junk, junkLength, laid⟩ := lower.extend_low (by rw [← holds.size]; exact room)
    have written := Ring.Laid.writes [] (junk ++ [item]) after (new :: news) (by simpa using laid) (by simp [junkLength])
    refine ⟨grown, ?_, holds.positive, holds.limit, fun _ => newPlace, fun _ => newTail⟩
    simpa [Nat.mod_eq_of_lt newPlace] using written
  · -- the items before it make room
    obtain ⟨junk, junkLength, laid⟩ := lower.extend_low (by rw [← holds.size]; exact room)
    have moved := Ring.Laid.moves [] junk before (item :: after) (by simpa using laid)
    obtain ⟨junk', length', shifted⟩ := moved
    have same : moveItems ((v.head + before.length) % v.maxSize) v.maxSize v.maxSize v.head
        ((v.head + v.maxSize - news.length) % v.maxSize) v.vector =
        Ring.moves v.maxSize v.vector v.head ((v.head + v.maxSize - news.length) % v.maxSize) before.length :=
      moveItems_eq (by omega) inside (fun j early => Ring.place_ne (by omega) (by omega) (by omega)) rfl
    have place : ((v.head + before.length) % v.maxSize + v.maxSize - news.length) % v.maxSize =
        ((v.head + v.maxSize - news.length) % v.maxSize + before.length) % v.maxSize := by
      rw [Nat.add_sub_assoc (by omega), Nat.mod_add_mod, Nat.mod_add_mod]
      congr 1
      omega
    rw [List.length_nil, Nat.add_zero, junkLength, back_mod inside (by omega), Nat.mod_eq_of_lt newPlace, ← same] at shifted
    have written := Ring.Laid.writes before (junk' ++ [item]) after (new :: news) (by simpa using shifted)
      (by simp [length', junkLength])
    refine ⟨grown, ?_, holds.positive, holds.limit, fun _ => newPlace, fun _ => newTail⟩
    rw [← place] at written
    exact written

end DCCPAckVector

end Ns2
