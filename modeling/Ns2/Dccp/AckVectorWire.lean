import Ns2.Dccp.AckVectorHistory

namespace Ns2

namespace DCCPAckVector

variable {fresh memory : Fresh} {v w : DCCPAckVector} {items : List (BitVec 8)} {m : AckMap} {seqnum peerSize : ℕ}
  {options options' : DCCPOptions} {l : List (BitVec 8 × List (BitVec 8))}

/-- What `processOption` of the peer stores for an ack vector option on a
packet that acknowledges `acknum`. -/
def received (memory : Fresh) (peerSize acknum : ℕ) (option : BitVec 8 × List (BitVec 8)) : Bool × DCCPAckVector :=
  setAckVector memory option.2 acknum (1 - (DCCPOptions.ackVectorN1 - option.1)) nesting (new memory peerSize)

/-- The option that a vector is sent in, or a shortened one. -/
def optionOf (v : DCCPAckVector) (count : ℕ) : BitVec 8 × List (BitVec 8) :=
  (if v.ene = 0 then DCCPOptions.ackVectorN0 else DCCPOptions.ackVectorN1, v.copied.take count)

/-- A vector that is sent comes, behind the options that are there already, as
one from which the peer has the same vector again; one that is too long is
reported. -/
structure Conveyed (v : DCCPAckVector) (memory : Fresh) (peerSize seqnum : ℕ) (options : DCCPOptions) : Prop where
  whole : ∀ w options', v.sendAckVector seqnum v.seqHead options = some (w, options') →
    ∃ option x, DCCPOptions.parseOptions (options'.size + 1) options'.startOptionWalk =
        DCCPOptions.parseOptions (options.size + 1) options.startOptionWalk ++ [option] ∧
      (option.1 = DCCPOptions.ackVectorN0 ∨ option.1 = DCCPOptions.ackVectorN1) ∧ received memory peerSize v.seqHead option = (true, x) ∧
      (∀ k, x.getState k = v.getState k) ∧ x.seqHead = v.seqHead ∧ x.seqTail = v.seqTail ∧ x.ene = v.ene
  reported : 253 < v.size → v.sendAckVector seqnum v.seqHead options = none

/-- `addToAckHistory` aborts for a number that is not above the last one or when
the head fell below the last one that was acknowledged. -/
def Refuses (v : DCCPAckVector) (seqnum : ℕ) : Prop :=
  ∃ newest older, v.ackHist = newest :: older ∧ (seqnum ≤ newest.seqSent ∨ v.seqHead < newest.ackNum)

theorem addToAckHistory_none : v.addToAckHistory seqnum = none ↔ v.Refuses seqnum := by
  unfold addToAckHistory Refuses
  cases v.ackHist with
  | nil => simp
  | cons newest older =>
    dsimp only
    split_ifs with old low
    · exact ⟨fun _ => ⟨newest, older, rfl, Or.inl old⟩, fun _ => rfl⟩
    · exact ⟨fun _ => ⟨newest, older, rfl, Or.inr low⟩, fun _ => rfl⟩
    · refine ⟨fun sent => (by cases sent), ?_⟩
      rintro ⟨_, _, same, below | above⟩
      · exact absurd ((List.cons.inj same).1 ▸ below) old
      · exact absurd ((List.cons.inj same).1 ▸ above) low

theorem narrowed_size : (BitVec.ofNat 8 v.size).toNat = v.size % 256 := BitVec.toNat_ofNat ..

/-- What is reported: the length that is left of the size does not fit into an option. -/
theorem sendAckVector_none (reported : v.Refuses seqnum ∨ v.size % 256 = 0 ∨ 254 ≤ v.size % 256) :
    v.sendAckVector seqnum v.seqHead options = none := by
  rw [Option.eq_none_iff_forall_not_mem]
  rintro ⟨w, options'⟩ sent
  obtain ⟨_, _, added, done⟩ := sendAckVector_eq_some.mp sent
  rcases reported with refuses | unfit
  · rw [addToAckHistory_none.mpr refuses] at added
    cases added
  have limit : DCCPOptions.maxLength = 255 := rfl
  unfold DCCPOptions.addOption at done
  dsimp only at done
  rw [if_pos] at done
  · cases (Prod.mk.inj done).1
  rcases unfit with none | beyond
  · refine Or.inr (Or.inl ⟨by split <;> decide, BitVec.eq_of_toNat_eq ?_⟩)
    rw [narrowed_size, none]
    rfl
  · refine Or.inr (Or.inr ?_)
    have some : BitVec.ofNat 8 v.size ≠ 0 := by
      intro zero
      rw [← narrowed_size, zero] at beyond
      exact absurd beyond (by decide)
    rw [if_neg some, narrowed_size]
    omega

/-- What is sent: as many bytes as the length that is left of the size says. -/
theorem Encodes.sent (encodes : Encodes v items m) (filled : v.size ≠ 0) (accepted : ¬v.Refuses seqnum) (carries : options.Carries l)
    (room : options.size + (v.size + 2) ≤ options.maxSize) (low : v.size % 256 ≠ 0) (high : v.size % 256 < 254) :
    ∃ w options', v.sendAckVector seqnum v.seqHead options = some (w, options') ∧ options'.Carries (l ++ [v.optionOf (v.size % 256)]) := by
  have limit : DCCPOptions.maxLength = 255 := rfl
  have length : v.copied.length = v.size := by rw [encodes.holds.copied, encodes.holds.size]
  have less : v.size % 256 ≤ v.size := Nat.mod_le _ _
  have long : DCCPOptions.singleByteLimit ≤ (v.optionOf (v.size % 256)).1.toNat := by
    unfold optionOf
    dsimp only
    split <;> decide
  have nonzero : BitVec.ofNat 8 v.size ≠ 0 := by
    intro zero
    rw [← narrowed_size, zero] at low
    exact low rfl
  have enough : (BitVec.ofNat 8 v.size).toNat ≤ v.copied.length := by
    rw [narrowed_size, length]
    exact less
  obtain ⟨options', done, carries'⟩ := carries.addOption long nonzero (by rw [narrowed_size]; omega) (by rw [narrowed_size]; omega) enough
  obtain ⟨w, added⟩ := Option.ne_none_iff_exists'.mp (mt addToAckHistory_none.mp accepted)
  rw [narrowed_size] at carries'
  exact ⟨w, options', sendAckVector_eq_some.mpr ⟨rfl, filled, added, done⟩, carries'⟩

/-- All bytes of a vector give the peer the same vector. -/
theorem Encodes.received (encodes : Encodes v items m) (filled : v.size ≠ 0) (memory : Fresh) (positive : 0 < peerSize)
    (limit : peerSize ≤ maxAckvSize) (type : BitVec 8) :
    ∃ x, DCCPAckVector.received memory peerSize v.seqHead (type, v.copied) = (true, x) ∧ (∀ k, x.getState k = v.getState k) ∧
      x.seqHead = v.seqHead ∧ x.seqTail = v.seqTail ∧ x.ene = 1 - (DCCPOptions.ackVectorN1 - type) := by
  have fits := m.fits
  have nonempty : m.states ≠ [] := mt encodes.size_eq_zero.mpr filled
  have empty : Holds (new memory peerSize) [] := new_holds peerSize positive limit
  have most : items.length ≤ maxAckvSize := encodes.holds.laid.fits.trans encodes.holds.limit
  obtain ⟨x, done, encodes', ene, _, _⟩ :
      ∃ x, setAckVector memory items m.head (1 - (DCCPOptions.ackVectorN1 - type)) 17 (new memory peerSize) = (true, x) ∧
        Encodes x items (.ofStates m.head (itemStates items)) ∧ x.ene = 1 - (DCCPOptions.ackVectorN1 - type) ∧ _ :=
    empty.setAckVector (deep_nesting positive) most encodes.bound (by rw [encodes.states]; exact fits)
  have same : AckMap.ofStates m.head (itemStates items) = m := by
    rw [AckMap.ofStates, dif_pos (by rw [encodes.states]; exact fits)]
    exact AckMap.ext rfl encodes.states
  rw [same] at encodes'
  refine ⟨x, ?_, fun k => by rw [encodes'.getState, encodes.getState], by rw [encodes'.head, encodes.head], ?_, ene⟩
  · unfold DCCPAckVector.received
    rw [encodes.holds.copied, encodes.head]
    exact done
  · have mine := encodes.tail nonempty
    have theirs := encodes'.tail nonempty
    omega

theorem ene_of_type (ene : BitVec 8) :
    1 - (DCCPOptions.ackVectorN1 - if ene = 0 then DCCPOptions.ackVectorN0 else DCCPOptions.ackVectorN1) = ene ↔ ene.toNat ≤ 1 := by
  revert ene
  decide +kernel

/-- Up to 253 bytes, a vector is conveyed if its echo is one bit. -/
theorem Encodes.conveyed_short (encodes : Encodes v items m) (filled : v.size ≠ 0) (accepted : ¬v.Refuses seqnum) (carries : options.Carries l)
    (room : options.size + (v.size + 2) ≤ options.maxSize) (short : v.size ≤ 253) (positive : 0 < peerSize) (limit : peerSize ≤ maxAckvSize) :
    v.Conveyed memory peerSize seqnum options ↔ v.ene.toNat ≤ 1 := by
  have low : v.size % 256 = v.size := Nat.mod_eq_of_lt (by omega)
  obtain ⟨w, options', sent, carries'⟩ := encodes.sent filled accepted carries room (by omega) (by omega)
  have whole : v.optionOf (v.size % 256) = ((v.optionOf 0).1, v.copied) := by
    rw [low, optionOf, List.take_of_length_le (by rw [encodes.holds.copied, encodes.holds.size])]
    rfl
  rw [whole] at carries'
  obtain ⟨x, done, states, head, tail, ene⟩ := encodes.received filled memory positive limit (v.optionOf 0).1
  rw [← ene_of_type]
  constructor
  · intro conveyed
    obtain ⟨option, y, parsed, _, done', _, _, _, ene'⟩ := conveyed.whole w options' sent
    rw [carries'.parse, carries.parse] at parsed
    obtain rfl := List.singleton_inj.mp (List.append_cancel_left parsed)
    rw [done] at done'
    cases (Prod.mk.inj done').2
    exact ene.symm.trans ene'
  · intro one
    refine ⟨?_, fun long => absurd long (by omega)⟩
    intro w' options'' sent'
    rw [sent] at sent'
    cases Option.some.inj sent'
    refine ⟨_, x, by rw [carries'.parse, carries.parse], ?_, done, states, head, tail, ene.trans one⟩
    show (if _ then _ else _) = _ ∨ (if _ then _ else _) = _
    split
    · exact Or.inl rfl
    · exact Or.inr rfl

/-- Of a longer one, only what is left of its size is sent. -/
theorem Encodes.not_conveyed (encodes : Encodes v items m) (accepted : ¬v.Refuses seqnum) (carries : options.Carries l)
    (room : options.size + (v.size + 2) ≤ options.maxSize) (long : 253 < v.size) (low : v.size % 256 ≠ 0) (high : v.size % 256 < 254) :
    ¬v.Conveyed memory peerSize seqnum options := by
  obtain ⟨w, options', sent, _⟩ := encodes.sent (by omega) accepted carries room low high
  intro conveyed
  rw [conveyed.reported long] at sent
  cases sent

/-- Exactly when a vector that an agent has reaches its peer as it is. -/
theorem conveyed_iff {n maxSize : ℕ} {uses : List Use} {outs : List Unit} (positive : 0 < n) (limit : n ≤ maxAckvSize)
    (admitted : (useMachine fresh).Along UseAdmitted (new fresh n) uses) (written : (useMachine fresh).Along UseWritten (new fresh n) uses)
    (run : (useMachine fresh).run (new fresh n) uses = some (v, outs)) (filled : v.size ≠ 0)
    (junk : ℕ → BitVec 8) (calls : List DCCPOptions.Call) (built : options = calls.foldl DCCPOptions.call (.new junk maxSize))
    (room : options.size + (v.size + 2) ≤ options.maxSize) (memory : Fresh) (peerPositive : 0 < peerSize) (peerLimit : peerSize ≤ maxAckvSize)
    (seqnum : ℕ) :
    v.Conveyed memory peerSize seqnum options ↔
      v.size ≤ 253 ∧ v.ene.toNat ≤ 1 ∨ v.size % 256 = 0 ∨ 254 ≤ v.size % 256 ∨ v.Refuses seqnum := by
  obtain ⟨items, m, encodes, _⟩ := run_sound positive limit admitted written run
  obtain ⟨l, carries⟩ : ∃ l, options.Carries l := by
    rw [built]
    exact DCCPOptions.built_carries junk maxSize calls
  by_cases reported : v.Refuses seqnum ∨ v.size % 256 = 0 ∨ 254 ≤ v.size % 256
  · refine ⟨fun _ => by tauto, fun _ => ?_⟩
    have aborts : v.sendAckVector seqnum v.seqHead options = none := sendAckVector_none reported
    refine ⟨?_, fun _ => aborts⟩
    intro w options' sent
    rw [aborts] at sent
    cases sent
  · obtain ⟨accepted, low, high⟩ : ¬v.Refuses seqnum ∧ v.size % 256 ≠ 0 ∧ ¬254 ≤ v.size % 256 := by tauto
    rcases Nat.lt_or_ge 253 v.size with long | short
    · refine ⟨fun conveyed => absurd conveyed (encodes.not_conveyed accepted carries room long low (by omega)), ?_⟩
      rintro (⟨short, _⟩ | none | beyond | refuses)
      · omega
      · exact absurd none low
      · exact absurd beyond high
      · exact absurd refuses accepted
    · rw [encodes.conveyed_short filled accepted carries room short peerPositive peerLimit]
      tauto

theorem conveyed_iff_sample :
    let v := (addPacketEcn (fun _ _ => 0) 5 .ect1 true (new (fun _ _ => 0) 4)).2
    v.Conveyed (fun _ _ => 7) 1 9 (.new (fun _ => 0) 512) ↔
      v.size ≤ 253 ∧ v.ene.toNat ≤ 1 ∨ v.size % 256 = 0 ∨ 254 ≤ v.size % 256 ∨ v.Refuses 9 := by
  intro v
  have alone : (useMachine fun _ _ => 0).run (new (fun _ _ => 0) 4) [.addPacketEcn 5 .ect1 true] = some (v, [()]) := rfl
  exact conveyed_iff (by decide) (by decide) (by decide +kernel) (by decide +kernel) alone (by decide +kernel) (fun _ => 0) [] rfl
    (by decide +kernel) (fun _ _ => 7) (by decide) (by decide) 9

/-- Every second packet up to number 257: a vector of 257 bytes. -/
def everySecond : List Use := (List.range 129).map fun i => .ask (.addPacket (2 * i + 1) .recv)

/-- Of these bytes, one is sent. -/
theorem everySecond_shortened : ∃ v outs w options',
    (useMachine fun _ _ => 0).run (new (fun _ _ => 0) 20) everySecond = some (v, outs) ∧
    (useMachine fun _ _ => 0).Along UseAdmitted (new (fun _ _ => 0) 20) everySecond ∧ v.size = 257 ∧
    v.sendAckVector 1 v.seqHead (.new (fun _ => 0) 512) = some (w, options') ∧
    DCCPOptions.parseOptions (options'.size + 1) options'.startOptionWalk = [v.optionOf 1] ∧
    ¬v.Conveyed (fun _ _ => 0) 20 1 (.new (fun _ => 0) 512) := by
  have sizes : ((useMachine fun _ _ => 0).run (new (fun _ _ => 0) 20) everySecond).map (fun last => (last.1.size, last.1.ackHist.length)) =
      some (257, 0) := by
    decide +kernel
  have admitted : (useMachine fun _ _ => 0).Along UseAdmitted (new (fun _ _ => 0) 20) everySecond := by decide +kernel
  obtain ⟨⟨v, outs⟩, run, same⟩ := Option.map_eq_some_iff.mp sizes
  obtain ⟨size, hist⟩ := Prod.mk.inj same
  dsimp only at size hist
  obtain ⟨items, m, encodes, _⟩ := run_sound (by decide) (by decide) admitted (by decide +kernel) run
  have accepted : ¬v.Refuses 1 := by
    rintro ⟨newest, older, some, _⟩
    rw [some] at hist
    cases hist
  have carries := DCCPOptions.new_carries (fun _ => 0) 512
  have room : (DCCPOptions.new (fun _ => 0) 512).size + (v.size + 2) ≤ (DCCPOptions.new (fun _ => 0) 512).maxSize := by
    rw [size]
    decide
  obtain ⟨w, options', sent, carries'⟩ := encodes.sent (by omega) accepted carries room (by omega) (by omega)
  rw [size] at carries'
  exact ⟨v, outs, w, options', run, admitted, size, sent, carries'.parse,
    encodes.not_conveyed accepted carries room (by omega) (by omega) (by omega)⟩

end DCCPAckVector

end Ns2
