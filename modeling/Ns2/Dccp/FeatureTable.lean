import Ns2.Dccp.Agent
import Ns2.Library.Machine
import Mathlib.Logic.Function.Basic

namespace Ns2

inductive FeatureLocation
  | locLocal
  | locRemote
deriving DecidableEq

/-- A feature number and where the feature lies. -/
abbrev Feature := BitVec 8 × FeatureLocation

/-- The parallel arrays of the pending Changes, and those of the features to confirm. -/
structure FeatureTable where
  featListNum : ℕ → BitVec 8
  featListLoc : ℕ → FeatureLocation
  featListSeqNum : ℕ → ℕ
  featListFirst : ℕ → Bool
  featListUsed : ℕ
  featConfNum : ℕ → BitVec 8
  featConfLoc : ℕ → FeatureLocation
  featConfUsed : ℕ
  featSize : ℕ
  allowMultNeg : ℤ

namespace FeatureTable

/-- What the agent knows at a call: `seq_num_`, `packet_recv_` and `ack_num_recv_`. -/
structure Moment where
  seqNum : ℕ
  packetRecv : Bool
  ackNumRecv : ℕ
deriving DecidableEq

/-- The sequence number and the mark of a first Change that a call has for a feature, or `none` when it is finished. -/
abbrev Record := Feature × Option (ℕ × Bool)

/-- An option that a call gives to `opt_`: its type, feature number and data. -/
structure Offer where
  type : BitVec 8
  num : BitVec 8
  data : List (BitVec 8)
deriving DecidableEq

structure Answer where
  result : Bool
  records : List Record
  offers : List Offer
deriving DecidableEq

/-- Arrays as they were allocated. -/
def make (junk : FeatureTable) (featSize : ℕ) (allowMultNeg : ℤ) : FeatureTable :=
  { junk with featListUsed := 0, featConfUsed := 0, featSize, allowMultNeg }

def feature (s : FeatureTable) (i : ℕ) : Feature := (s.featListNum i, s.featListLoc i)

/-- `none` is the answer -1. -/
def findFeatureInList (s : FeatureTable) (f : Feature) : Option ℕ :=
  (List.range s.featListUsed).find? fun walker => s.featListNum walker = f.1 ∧ s.featListLoc walker = f.2

def featureIsChanging (s : FeatureTable) (f : Feature) : Bool :=
  (List.range s.featListUsed).any fun i => s.featListNum i = f.1 ∧ s.featListLoc i = f.2

/-- `feat_list_used_` has 8 bits. -/
def append (s : FeatureTable) (f : Feature) : FeatureTable :=
  { s with
    featListNum := Function.update s.featListNum s.featListUsed f.1,
    featListLoc := Function.update s.featListLoc s.featListUsed f.2,
    featListSeqNum := Function.update s.featListSeqNum s.featListUsed 0,
    featListFirst := Function.update s.featListFirst s.featListUsed true,
    featListUsed := (s.featListUsed + 1) % 256 }

def changeFeature (s : FeatureTable) (now : Moment) (f : Feature) : FeatureTable × Answer :=
  if s.allowMultNeg > 0 then
    match s.findFeatureInList f with
    | some pos =>
      ({ s with featListSeqNum := Function.update s.featListSeqNum pos now.seqNum,
                featListFirst := Function.update s.featListFirst pos true }, ⟨true, [(f, some (now.seqNum, true))], []⟩)
    | none => if s.featListUsed = s.featSize then (s, ⟨false, [], []⟩) else (s.append f, ⟨true, [(f, some (0, true))], []⟩)
  else if s.featListUsed = s.featSize ∨ s.featureIsChanging f then (s, ⟨false, [], []⟩)
  else (s.append f, ⟨true, [(f, some (0, true))], []⟩)

/-- The option types, by the location. -/
def changeType (loc : FeatureLocation) : BitVec 8 := if loc = .locLocal then 33 else 35

def confirmType (loc : FeatureLocation) : BitVec 8 := if loc = .locLocal then 34 else 36

/-- One round of the first loop of `addFeatureOptions`. `getFeature` is `none` for a result that is not positive. -/
def offerChange (getFeature : Feature → Option (List (BitVec 8))) (now : Moment) (state : FeatureTable × Answer) (i : ℕ) :
    FeatureTable × Answer :=
  let s := state.1
  let out := state.2
  if !now.packetRecv || s.featListFirst i || s.featListSeqNum i ≤ now.ackNumRecv then
    match getFeature (s.feature i) with
    | some data =>
      ({ s with featListSeqNum := Function.update s.featListSeqNum i now.seqNum,
                featListFirst := Function.update s.featListFirst i false },
        { out with
          records := out.records ++ [(s.feature i, some (now.seqNum, false))],
          offers := out.offers ++ [⟨changeType (s.featListLoc i), s.featListNum i, data⟩] })
    | none => (s, out)
  else (s, out)

/-- One round of the second loop. -/
def offerConfirm (s : FeatureTable) (getFeature : Feature → Option (List (BitVec 8))) (i : ℕ) : Option Offer :=
  (getFeature (s.featConfNum i, s.featConfLoc i)).map fun data =>
    ⟨confirmType (s.featConfLoc i), s.featConfNum i, data⟩

def addFeatureOptions (getFeature : Feature → Option (List (BitVec 8))) (s : FeatureTable) (now : Moment) :
    FeatureTable × Answer :=
  let offered := (List.range s.featListUsed).foldl (offerChange getFeature now) (s, ⟨true, [], []⟩)
  let confirms := (List.range s.featConfUsed).filterMap (s.offerConfirm getFeature)
  ({ offered.1 with featConfUsed := 0 }, { offered.2 with offers := offered.2.offers ++ confirms })

/-- The inner loop of `finishFeatureNegotiation`, on one array. -/
def moveDown {α : Type} (entries : ℕ → α) (walker count : ℕ) : ℕ → α :=
  (List.range' walker count).foldl (fun entries i => Function.update entries i (entries (i + 1))) entries

def finishFeatureNegotiation (s : FeatureTable) (f : Feature) : FeatureTable × Answer :=
  match s.findFeatureInList f with
  | some walker =>
    ({ s with
        featListNum := moveDown s.featListNum walker (s.featListUsed - 1 - walker),
        featListLoc := moveDown s.featListLoc walker (s.featListUsed - 1 - walker),
        featListUsed := s.featListUsed - 1 }, ⟨true, [(f, none)], []⟩)
  | none => (s, ⟨false, [], []⟩)

def confirmFeature (s : FeatureTable) (f : Feature) : FeatureTable × Answer :=
  let found := (List.range s.featConfUsed).any fun walker => s.featConfNum walker = f.1 ∧ s.featConfLoc walker = f.2
  if !found ∧ s.featConfUsed < s.featSize then
    ({ s with
        featConfNum := Function.update s.featConfNum s.featConfUsed f.1,
        featConfLoc := Function.update s.featConfLoc s.featConfUsed f.2,
        featConfUsed := (s.featConfUsed + 1) % 256 }, ⟨true, [], []⟩)
  else (s, ⟨true, [], []⟩)

/-- Whether `processOption` ignores a Confirm because the packet acknowledges an older Change. -/
def ignoresConfirm (s : FeatureTable) (type : DCCPPacketType) (ackNum : ℕ) (f : Feature) : Bool :=
  s.featureIsChanging f && decide (s.allowMultNeg > 0) && decide (type = .ack ∨ type = .dataack ∨ type = .response) &&
    (s.findFeatureInList f).any fun pos => decide (ackNum < s.featListSeqNum pos)

inductive Call
  | changeFeature (now : Moment) (f : Feature)
  | addFeatureOptions (now : Moment) (getFeature : Feature → Option (List (BitVec 8)))
  | finishFeatureNegotiation (f : Feature)
  | confirmFeature (f : Feature)

def step (s : FeatureTable) : Call → FeatureTable × Answer
  | .changeFeature now f => s.changeFeature now f
  | .addFeatureOptions now getFeature => s.addFeatureOptions getFeature now
  | .finishFeatureNegotiation f => s.finishFeatureNegotiation f
  | .confirmFeature f => s.confirmFeature f

def machine : Machine FeatureTable Call Answer := ⟨fun s call => some (s.step call)⟩

/-- The values that a sequence of records leaves for each feature. -/
def recorded (records : List Record) : Feature → Option (ℕ × Bool) :=
  records.foldl (fun values record => Function.update values record.1 record.2) fun _ => none

/-- The arrays have each pending feature once, with the values recorded for it. -/
structure Aligned (s : FeatureTable) (records : List Record) : Prop where
  narrow : s.featListUsed < 256
  once : ∀ i j, i < s.featListUsed → j < s.featListUsed → s.feature i = s.feature j → i = j
  own : ∀ f v, recorded records f = some v ↔
    ∃ i < s.featListUsed, s.feature i = f ∧ (s.featListSeqNum i, s.featListFirst i) = v

variable {s : FeatureTable} {records : List Record} {f : Feature} {now : Moment} {pos walker : ℕ}

theorem recorded_append (records : List Record) (record : Record) :
    recorded (records ++ [record]) = Function.update (recorded records) record.1 record.2 := by
  rw [recorded, List.foldl_append]
  rfl

theorem find_some (found : s.findFeatureInList f = some pos) : pos < s.featListUsed ∧ s.feature pos = f := by
  have here := List.find?_some found
  simp only [decide_eq_true_eq] at here
  exact ⟨List.mem_range.mp (List.mem_of_find?_eq_some found), Prod.ext here.1 here.2⟩

theorem find_none (missing : s.findFeatureInList f = none) {i : ℕ} (inside : i < s.featListUsed) : s.feature i ≠ f := by
  intro same
  have other := List.find?_eq_none.mp missing i (List.mem_range.mpr inside)
  simp only [decide_eq_true_eq] at other
  exact other ⟨congrArg Prod.fst same, congrArg Prod.snd same⟩

theorem featureIsChanging_eq (s : FeatureTable) (f : Feature) : s.featureIsChanging f = (s.findFeatureInList f).isSome := by
  rw [Bool.eq_iff_iff, featureIsChanging, findFeatureInList, List.any_eq_true, List.find?_isSome]

theorem moveDown_eq {α : Type} (entries : ℕ → α) (walker count : ℕ) :
    moveDown entries walker count = fun i => if walker ≤ i ∧ i < walker + count then entries (i + 1) else entries i := by
  unfold moveDown
  induction count generalizing entries walker with
  | zero =>
    funext i
    exact (if_neg (by omega)).symm
  | succ count ih =>
    rw [List.range'_succ, List.foldl_cons, ih]
    funext i
    by_cases first : i = walker
    · rw [if_neg (by omega), if_pos (by omega), first, Function.update_self]
    · by_cases moved : walker + 1 ≤ i ∧ i < walker + 1 + count
      · rw [if_pos moved, if_pos (by omega), Function.update_of_ne (by omega)]
      · rw [if_neg moved, if_neg (by omega), Function.update_of_ne first]

/-- New values for a feature at its place. -/
theorem Aligned.write (aligned : Aligned s records) (inside : pos < s.featListUsed) (seqNum : ℕ) (first : Bool) :
    Aligned { s with featListSeqNum := Function.update s.featListSeqNum pos seqNum,
                     featListFirst := Function.update s.featListFirst pos first }
      (records ++ [(s.feature pos, some (seqNum, first))]) where
  narrow := aligned.narrow
  once := aligned.once
  own g v := by
    rw [recorded_append]
    by_cases own : g = s.feature pos
    · subst own
      rw [Function.update_self]
      constructor
      · intro same
        refine ⟨pos, inside, rfl, ?_⟩
        simp only [Function.update_self]
        exact Option.some.inj same
      · rintro ⟨i, within, same, values⟩
        cases aligned.once i pos within inside same
        simp only [Function.update_self] at values
        exact congrArg some values
    · rw [Function.update_of_ne own, aligned.own]
      have other : ∀ i, s.feature i = g → i ≠ pos := fun i same here => own (here ▸ same.symm)
      constructor
      · rintro ⟨i, within, same, values⟩
        refine ⟨i, within, same, ?_⟩
        simpa only [Function.update_of_ne (other i same)] using values
      · rintro ⟨i, within, same, values⟩
        refine ⟨i, within, same, ?_⟩
        simpa only [Function.update_of_ne (other i same)] using values

/-- A feature that is not pending is put at the end. -/
theorem Aligned.append (aligned : Aligned s records) (missing : s.findFeatureInList f = none) (room : s.featListUsed ≠ 255) :
    Aligned (s.append f) (records ++ [(f, some (0, true))]) := by
  have narrow := aligned.narrow
  have used : (s.append f).featListUsed = s.featListUsed + 1 := Nat.mod_eq_of_lt (by omega)
  have last : (s.append f).feature s.featListUsed = f := by
    simp only [feature, FeatureTable.append, Function.update_self]
  have before : ∀ i, i < s.featListUsed → (s.append f).feature i = s.feature i := fun i inside => by
    simp only [feature, FeatureTable.append, Function.update_of_ne inside.ne]
  refine ⟨by omega, ?_, ?_⟩
  · intro i j inI inJ same
    rw [used] at inI inJ
    rcases Nat.lt_succ_iff_lt_or_eq.mp inI with early | rfl
    · rcases Nat.lt_succ_iff_lt_or_eq.mp inJ with early' | rfl
      · rw [before i early, before j early'] at same
        exact aligned.once i j early early' same
      · rw [before i early, last] at same
        exact absurd same (find_none missing early)
    · rcases Nat.lt_succ_iff_lt_or_eq.mp inJ with early | rfl
      · rw [before j early, last] at same
        exact absurd same.symm (find_none missing early)
      · rfl
  · intro g v
    rw [recorded_append, used]
    by_cases own : g = f
    · subst own
      rw [Function.update_self]
      constructor
      · intro same
        refine ⟨s.featListUsed, Nat.lt_succ_self _, last, ?_⟩
        simp only [FeatureTable.append, Function.update_self]
        exact Option.some.inj same
      · rintro ⟨i, inside, same, values⟩
        rcases Nat.lt_succ_iff_lt_or_eq.mp inside with early | rfl
        · exact absurd ((before i early).symm.trans same) (find_none missing early)
        · simp only [FeatureTable.append, Function.update_self] at values
          exact congrArg some values
    · rw [Function.update_of_ne own, aligned.own]
      constructor
      · rintro ⟨i, inside, same, values⟩
        refine ⟨i, inside.trans (Nat.lt_succ_self _), (before i inside).trans same, ?_⟩
        simpa only [FeatureTable.append, Function.update_of_ne inside.ne] using values
      · rintro ⟨i, inside, same, values⟩
        rcases Nat.lt_succ_iff_lt_or_eq.mp inside with early | rfl
        · refine ⟨i, early, (before i early).symm.trans same, ?_⟩
          simpa only [FeatureTable.append, Function.update_of_ne early.ne] using values
        · exact absurd (last.symm.trans same) (Ne.symm own)

/-- Whether the entries from a place on have the same values. -/
def Even (s : FeatureTable) (walker : ℕ) : Prop := ∀ i < s.featListUsed, walker < i →
  s.featListSeqNum i = s.featListSeqNum (i - 1) ∧ s.featListFirst i = s.featListFirst (i - 1)

instance Even.decidable (s : FeatureTable) (walker : ℕ) : Decidable (s.Even walker) :=
  inferInstanceAs (Decidable (∀ i < s.featListUsed, walker < i → _))

/-- Only two of the four arrays move up, which is right when the others need not. -/
theorem Aligned.finish (aligned : Aligned s records) (found : s.findFeatureInList f = some walker) (even : s.Even walker) :
    Aligned (s.finishFeatureNegotiation f).1 (records ++ [(f, none)]) := by
  obtain ⟨inside, here⟩ := find_some found
  let t := (s.finishFeatureNegotiation f).1
  let origin (i : ℕ) : ℕ := if walker ≤ i then i + 1 else i
  have finished : t = { s with
      featListNum := moveDown s.featListNum walker (s.featListUsed - 1 - walker),
      featListLoc := moveDown s.featListLoc walker (s.featListUsed - 1 - walker),
      featListUsed := s.featListUsed - 1 } := by
    simp only [t, finishFeatureNegotiation, found]
  have used : t.featListUsed = s.featListUsed - 1 := by rw [finished]
  have feature' : ∀ i < s.featListUsed - 1, t.feature i = s.feature (origin i) := by
    intro i within
    simp only [finished, feature, moveDown_eq, origin]
    by_cases moved : walker ≤ i
    · rw [if_pos ⟨moved, by omega⟩, if_pos ⟨moved, by omega⟩, if_pos moved]
    · rw [if_neg fun both => moved both.1, if_neg fun both => moved both.1, if_neg moved]
  have values' : ∀ i < s.featListUsed - 1,
      (t.featListSeqNum i, t.featListFirst i) = (s.featListSeqNum (origin i), s.featListFirst (origin i)) := by
    intro i within
    simp only [finished, origin]
    by_cases moved : walker ≤ i
    · have same := even (i + 1) (by omega) (by omega)
      rw [if_pos moved, same.1, same.2, Nat.add_sub_cancel]
    · rw [if_neg moved]
  have lands : ∀ i < s.featListUsed - 1, origin i < s.featListUsed ∧ origin i ≠ walker := by
    intro i within
    simp only [origin]
    split_ifs <;> omega
  refine ⟨?_, ?_, fun g v => ?_⟩
  · exact used.trans_lt ((Nat.sub_le _ _).trans_lt aligned.narrow)
  · intro i j inI inJ same
    rw [used] at inI inJ
    rw [feature' i inI, feature' j inJ] at same
    have equal := aligned.once _ _ (lands i inI).1 (lands j inJ).1 same
    simp only [origin] at equal
    split_ifs at equal <;> omega
  · rw [recorded_append, used]
    by_cases own : g = f
    · subst own
      rw [Function.update_self]
      refine iff_of_false (fun none => Option.some_ne_none v none.symm) ?_
      rintro ⟨i, within, same, _⟩
      rw [feature' i within, ← here] at same
      exact (lands i within).2 (aligned.once _ _ (lands i within).1 inside same)
    · rw [Function.update_of_ne own, aligned.own]
      constructor
      · rintro ⟨j, within, same, values⟩
        have apart : j ≠ walker := fun equal => own (same.symm.trans (equal ▸ here))
        obtain ⟨i, small, rfl⟩ : ∃ i < s.featListUsed - 1, j = origin i := by
          by_cases early : j < walker
          · exact ⟨j, by omega, (if_neg (by omega)).symm⟩
          · refine ⟨j - 1, by omega, ?_⟩
            simp only [origin]
            rw [if_pos (by omega)]
            omega
        exact ⟨i, small, (feature' i small).trans same, (values' i small).trans values⟩
      · rintro ⟨i, within, same, values⟩
        exact ⟨origin i, (lands i within).1, (feature' i within).symm.trans same, (values' i within).symm.trans values⟩

section Offers

variable {getFeature : Feature → Option (List (BitVec 8))} {state next : FeatureTable × Answer} {i n : ℕ}

/-- A round either leaves everything or writes the entry of its place and offers its Change. -/
theorem offerChange_cases (getFeature : Feature → Option (List (BitVec 8))) (now : Moment) (state : FeatureTable × Answer) (i : ℕ) :
    (offerChange getFeature now state i = state ∧ (state.1.featListFirst i = true → getFeature (state.1.feature i) = none)) ∨
      ∃ data, getFeature (state.1.feature i) = some data ∧ offerChange getFeature now state i =
        ({ state.1 with featListSeqNum := Function.update state.1.featListSeqNum i now.seqNum,
                        featListFirst := Function.update state.1.featListFirst i false },
          { state.2 with
            records := state.2.records ++ [(state.1.feature i, some (now.seqNum, false))],
            offers := state.2.offers ++ [⟨changeType (state.1.featListLoc i), state.1.featListNum i, data⟩] }) := by
  unfold offerChange
  by_cases due : (!now.packetRecv || state.1.featListFirst i || decide (state.1.featListSeqNum i ≤ now.ackNumRecv)) = true
  · simp only [due, if_true]
    cases got : getFeature (state.1.feature i) with
    | none => exact Or.inl ⟨rfl, fun _ => rfl⟩
    | some data => exact Or.inr ⟨data, rfl, rfl⟩
  · simp only [due]
    refine Or.inl ⟨rfl, fun first => absurd ?_ due⟩
    rw [first, Bool.or_true, Bool.true_or]

/-- What the rounds so far leave: the places after them are as before, and every first Change is offered. -/
structure Offered (s : FeatureTable) (records : List Record) (getFeature : Feature → Option (List (BitVec 8)))
    (n : ℕ) (state : FeatureTable × Answer) : Prop where
  aligned : Aligned state.1 (records ++ state.2.records)
  used : state.1.featListUsed = s.featListUsed
  feature : state.1.feature = s.feature
  later : ∀ i, n ≤ i → state.1.featListFirst i = s.featListFirst i
  offers : ∀ i < n, s.featListFirst i = true → ∀ data, getFeature (s.feature i) = some data →
    ⟨changeType (s.featListLoc i), s.featListNum i, data⟩ ∈ state.2.offers

theorem Offered.round (offered : Offered s records getFeature n state) (inside : n < s.featListUsed) (now : Moment) :
    Offered s records getFeature (n + 1) (offerChange getFeature now state n) := by
  have place : state.1.feature n = s.feature n := congrFun offered.feature n
  rcases offerChange_cases getFeature now state n with ⟨same, unknown⟩ | ⟨data, got, same⟩
  · rw [same]
    refine ⟨offered.aligned, offered.used, offered.feature, fun i after => offered.later i (by omega), ?_⟩
    intro i before first data got
    rcases Nat.lt_succ_iff_lt_or_eq.mp before with early | rfl
    · exact offered.offers i early first data got
    · have none := unknown ((offered.later i le_rfl).trans first)
      rw [place, got] at none
      cases none
  · rw [same]
    refine ⟨?_, offered.used, offered.feature, fun i after => ?_, ?_⟩
    · simp only
      rw [← List.append_assoc]
      exact offered.aligned.write (offered.used ▸ inside) now.seqNum false
    · exact (Function.update_of_ne (by omega) ..).trans (offered.later i (by omega))
    · intro i before first data' got'
      rcases Nat.lt_succ_iff_lt_or_eq.mp before with early | rfl
      · exact List.mem_append_left _ (offered.offers i early first data' got')
      · refine List.mem_append_right _ (List.mem_singleton.mpr ?_)
        have num : state.1.featListNum i = s.featListNum i := congrArg Prod.fst place
        have loc : state.1.featListLoc i = s.featListLoc i := congrArg Prod.snd place
        rw [place, got'] at got
        rw [num, loc, Option.some.inj got]

theorem Aligned.offered (aligned : Aligned s records) (getFeature : Feature → Option (List (BitVec 8))) (now : Moment)
    (inside : n ≤ s.featListUsed) :
    Offered s records getFeature n ((List.range n).foldl (offerChange getFeature now) (s, ⟨true, [], []⟩)) := by
  induction n with
  | zero =>
    refine ⟨?_, rfl, rfl, fun _ _ => rfl, fun i before => absurd before (Nat.not_lt_zero i)⟩
    rw [List.range_zero, List.foldl_nil, List.append_nil]
    exact aligned
  | succ n ih =>
    rw [List.range_succ, List.foldl_append, List.foldl_cons, List.foldl_nil]
    exact (ih (by omega)).round (by omega) now

end Offers

/-- The calls that the compaction does not disturb. A finished feature has no entry after it or one like it all the
way, and no feature becomes the 256th. -/
def Undisturbed (s : FeatureTable) : Call → Prop
  | .changeFeature _ f => s.featListUsed = 255 → s.featSize = 255 ∨ s.featureIsChanging f = true
  | .finishFeatureNegotiation f => ∀ walker ∈ s.findFeatureInList f, s.Even walker
  | _ => True

instance Undisturbed.decidable (s : FeatureTable) : ∀ call, Decidable (s.Undisturbed call)
  | .changeFeature _ f => inferInstanceAs (Decidable (_ → _ ∨ s.featureIsChanging f = true))
  | .finishFeatureNegotiation f => inferInstanceAs (Decidable (∀ walker ∈ s.findFeatureInList f, s.Even walker))
  | .addFeatureOptions _ _ => isTrue trivial
  | .confirmFeature _ => isTrue trivial

theorem Aligned.confirms (aligned : Aligned s records) (num : ℕ → BitVec 8) (loc : ℕ → FeatureLocation) (used : ℕ) :
    Aligned { s with featConfNum := num, featConfLoc := loc, featConfUsed := used } records :=
  ⟨aligned.narrow, aligned.once, aligned.own⟩

/-- A feature that is not pending is taken in where there is room. -/
theorem Aligned.admit (aligned : Aligned s records) (missing : s.findFeatureInList f = none) (space : s.featListUsed ≠ s.featSize)
    (undisturbed : s.featListUsed = 255 → s.featSize = 255 ∨ s.featureIsChanging f = true) :
    Aligned (s.append f) (records ++ [(f, some (0, true))]) := by
  refine aligned.append missing fun last => ?_
  rcases undisturbed last with full | changing
  · exact space (last.trans full.symm)
  · rw [featureIsChanging_eq, missing] at changing
    cases changing

theorem Aligned.change (aligned : Aligned s records) (now : Moment)
    (undisturbed : s.featListUsed = 255 → s.featSize = 255 ∨ s.featureIsChanging f = true) :
    Aligned (s.changeFeature now f).1 (records ++ (s.changeFeature now f).2.records) := by
  unfold changeFeature
  cases found : s.findFeatureInList f with
  | some pos =>
    have changing : s.featureIsChanging f = true := by rw [featureIsChanging_eq, found]; rfl
    obtain ⟨inside, here⟩ := find_some found
    by_cases mult : s.allowMultNeg > 0
    · simp only [mult, if_true]
      exact here ▸ aligned.write inside now.seqNum true
    · simp only [mult, if_false, changing, or_true, if_true, List.append_nil]
      exact aligned
  | none =>
    have still : s.featureIsChanging f = false := by rw [featureIsChanging_eq, found]; rfl
    by_cases full : s.featListUsed = s.featSize
    · simp only [full, true_or, if_true, ite_self, List.append_nil]
      exact aligned
    · have joined := aligned.admit found full undisturbed
      simpa only [full, still, Bool.false_eq_true, or_self, if_false, ite_self] using joined

theorem Aligned.step (aligned : Aligned s records) {call : Call} (undisturbed : s.Undisturbed call) :
    Aligned (s.step call).1 (records ++ (s.step call).2.records) := by
  cases call with
  | changeFeature now f => exact aligned.change now undisturbed
  | addFeatureOptions now getFeature =>
    exact ((aligned.offered getFeature now le_rfl).aligned).confirms _ _ 0
  | finishFeatureNegotiation f =>
    cases found : s.findFeatureInList f with
    | none =>
      simp only [FeatureTable.step, finishFeatureNegotiation, found, List.append_nil]
      exact aligned
    | some walker =>
      have ended := aligned.finish found (undisturbed walker found)
      simpa only [FeatureTable.step, finishFeatureNegotiation, found] using ended
  | confirmFeature f =>
    simp only [FeatureTable.step, confirmFeature]
    split_ifs
    · rw [List.append_nil]
      exact aligned.confirms _ _ _
    · rw [List.append_nil]
      exact aligned

theorem make_aligned (junk : FeatureTable) (featSize : ℕ) (allowMultNeg : ℤ) : Aligned (make junk featSize allowMultNeg) [] where
  narrow := Nat.succ_pos 255
  once i _ inside := absurd inside (Nat.not_lt_zero i)
  own _ v := iff_of_false (fun none => Option.some_ne_none v none.symm) fun ⟨i, inside, _⟩ => Nat.not_lt_zero i inside

theorem run_aligned (aligned : Aligned s records) {calls : List Call} (undisturbed : machine.Along Undisturbed s calls) :
    ∃ t answers, machine.run s calls = some (t, answers) ∧ Aligned t (records ++ answers.flatMap Answer.records) := by
  induction calls generalizing s records with
  | nil => exact ⟨s, [], rfl, by simpa using aligned⟩
  | cons call calls ih =>
    have taken : machine.step s call = some ((s.step call).1, (s.step call).2) := rfl
    obtain ⟨t, answers, run, after⟩ := ih (aligned.step undisturbed.head) (undisturbed.tail taken)
    refine ⟨t, (s.step call).2 :: answers, by rw [Machine.run_cons taken, run]; rfl, ?_⟩
    rwa [List.flatMap_cons, ← List.append_assoc]

theorem Aligned.place (aligned : Aligned s records) {v : ℕ × Bool} (pending : recorded records f = some v) :
    ∃ pos, s.findFeatureInList f = some pos ∧ pos < s.featListUsed ∧ s.feature pos = f ∧
      (s.featListSeqNum pos, s.featListFirst pos) = v := by
  obtain ⟨i, inside, here, values⟩ := (aligned.own f v).mp pending
  cases found : s.findFeatureInList f with
  | none => exact absurd here (find_none found inside)
  | some pos =>
    obtain ⟨inside', here'⟩ := find_some found
    cases aligned.once i pos inside inside' (here.trans here'.symm)
    exact ⟨i, rfl, inside, here, values⟩

/-- A Confirm of a pending feature is compared with the sequence number recorded for it. -/
theorem Aligned.compared (aligned : Aligned s records) {seqNum : ℕ} {first : Bool}
    (pending : recorded records f = some (seqNum, first)) (type : DCCPPacketType) (ackNum : ℕ) :
    s.ignoresConfirm type ackNum f = true ↔
      s.allowMultNeg > 0 ∧ (type = .ack ∨ type = .dataack ∨ type = .response) ∧ ackNum < seqNum := by
  obtain ⟨pos, found, _, _, values⟩ := aligned.place pending
  have own : s.featListSeqNum pos = seqNum := congrArg Prod.fst values
  simp only [ignoresConfirm, featureIsChanging_eq, found, own, Option.isSome_some, Option.any_some, Bool.true_and,
    Bool.and_eq_true, decide_eq_true_eq, and_assoc]

theorem Aligned.sent (aligned : Aligned s records) {seqNum : ℕ} (pending : recorded records f = some (seqNum, true))
    {getFeature : Feature → Option (List (BitVec 8))} {data : List (BitVec 8)} (known : getFeature f = some data) (now : Moment) :
    ⟨changeType f.2, f.1, data⟩ ∈ (s.addFeatureOptions getFeature now).2.offers := by
  obtain ⟨pos, _, inside, rfl, values⟩ := aligned.place pending
  have offered := aligned.offered getFeature now le_rfl
  exact List.mem_append_left _ (offered.offers pos inside (congrArg Prod.snd values) data known)

/-- In every run of such calls: a pending feature is in the arrays once, a Confirm is compared with the sequence
number recorded for its own feature, and a Change that has not been sent is sent with the next options. -/
theorem features_aligned (junk : FeatureTable) (featSize : ℕ) (allowMultNeg : ℤ) (calls : List Call)
    (undisturbed : machine.Along Undisturbed (make junk featSize allowMultNeg) calls) : ∃ s answers,
    machine.run (make junk featSize allowMultNeg) calls = some (s, answers) ∧
      Aligned s (answers.flatMap Answer.records) ∧
      ∀ f seqNum first, recorded (answers.flatMap Answer.records) f = some (seqNum, first) →
        (∀ type ackNum, s.ignoresConfirm type ackNum f = true ↔
          s.allowMultNeg > 0 ∧ (type = .ack ∨ type = .dataack ∨ type = .response) ∧ ackNum < seqNum) ∧
        (first = true → ∀ getFeature data now, getFeature f = some data →
          ⟨changeType f.2, f.1, data⟩ ∈ (s.addFeatureOptions getFeature now).2.offers) := by
  obtain ⟨s, answers, run, aligned⟩ := run_aligned (make_aligned junk featSize allowMultNeg) undisturbed
  rw [List.nil_append] at aligned
  refine ⟨s, answers, run, aligned, fun f seqNum first pending => ⟨?_, ?_⟩⟩
  · exact aligned.compared pending
  · rintro rfl getFeature data now known
    exact aligned.sent pending known now

/-- Arrays of zeros, for runs on fixed calls. -/
def blank : FeatureTable := ⟨fun _ => 0, fun _ => .locLocal, fun _ => 0, fun _ => false, 0, fun _ => 0, fun _ => .locLocal, 0, 0, 0⟩

/-- Two Changes that are sent in one packet, and then one more. The last one is confirmed first. -/
theorem features_aligned_sample : ∃ s answers,
    machine.run (make blank 24 0) [.changeFeature ⟨1, false, 0⟩ (1, .locLocal), .changeFeature ⟨1, false, 0⟩ (2, .locRemote),
      .addFeatureOptions ⟨1, false, 0⟩ (fun _ => some [0]), .changeFeature ⟨2, true, 1⟩ (3, .locLocal),
      .finishFeatureNegotiation (3, .locLocal)] = some (s, answers) ∧
      Aligned s (answers.flatMap Answer.records) := by
  obtain ⟨s, answers, run, aligned, _⟩ := features_aligned blank 24 0
    [.changeFeature ⟨1, false, 0⟩ (1, .locLocal), .changeFeature ⟨1, false, 0⟩ (2, .locRemote),
      .addFeatureOptions ⟨1, false, 0⟩ (fun _ => some [0]), .changeFeature ⟨2, true, 1⟩ (3, .locLocal),
      .finishFeatureNegotiation (3, .locLocal)] (by decide)
  exact ⟨s, answers, run, aligned⟩

/-- Feature 1 is sent in packet 5 and confirmed after feature 2 is requested, which then stands where feature 1 stood
and is taken for sent. -/
theorem change_withheld : ∃ s answers,
    machine.run (make blank 24 0) [.changeFeature ⟨5, true, 4⟩ (1, .locLocal), .addFeatureOptions ⟨5, true, 4⟩ (fun _ => some [0]),
      .changeFeature ⟨6, true, 4⟩ (2, .locLocal), .finishFeatureNegotiation (1, .locLocal)] = some (s, answers) ∧
      recorded (answers.flatMap Answer.records) (2, .locLocal) = some (0, true) ∧
      s.findFeatureInList (2, .locLocal) = some 0 ∧ s.featListSeqNum 0 = 5 ∧
      (s.addFeatureOptions (fun _ => some [0]) ⟨6, true, 4⟩).2.offers = [] :=
  ⟨_, _, rfl, by decide, by decide, by decide, by decide⟩

end FeatureTable

end Ns2
