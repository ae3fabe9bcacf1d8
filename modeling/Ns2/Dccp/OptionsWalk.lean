import Ns2.Dccp.Options
import Ns2.Library.Machine

namespace Ns2

namespace DCCPOptions

/-- The loop of `getOption`. Beside its result, the call hands out the data; without fuel, `none`. -/
def getOptionFrom (o : DCCPOptions) (type : BitVec 8) (maxSize : ℕ) : ℕ → ℤ → Option (ℤ × Option (List (BitVec 8)))
  | 0, _ => none
  | fuel + 1, walker =>
    if o.size ≤ walker then some (errNotFound, none)
    else if (o.byte walker).toNat < singleByteLimit then
      if o.byte walker = type then some (noErr, some []) else getOptionFrom o type maxSize fuel (walker + 1)
    else
      let dataSize : ℤ := (o.byte (walker + 1)).toNat - 2
      if o.byte walker = type then
        if dataSize ≤ maxSize then some (dataSize, some ((List.range dataSize.toNat).map fun i : ℕ => o.byte (walker + 2 + i)))
        else some (errSize, none)
      else getOptionFrom o type maxSize fuel (walker + 2 + dataSize)

def getOption (type : BitVec 8) (maxSize : ℕ) (o : DCCPOptions) : Option (ℤ × Option (List (BitVec 8))) :=
  getOptionFrom o type maxSize (o.size + 1) 0

/-- The option that a call asks for: its type, and its data behind the feature number. -/
def Call.option : Call → BitVec 8 × List (BitVec 8)
  | .addOption type data => (type, data.take (BitVec.ofNat 8 data.length).toNat)
  | .addFeatureOption type featNum data => (type, featNum :: data.take (BitVec.ofNat 8 data.length).toNat)

def answer (o : DCCPOptions) : Call → ℤ × DCCPOptions
  | .addOption type data => addOption type data (BitVec.ofNat 8 data.length) o
  | .addFeatureOption type featNum data => addFeatureOption type featNum data (BitVec.ofNat 8 data.length) o

def adder : Machine DCCPOptions Call ℤ where
  step o request := some ((o.answer request).2, (o.answer request).1)

/-- The options of the calls that return `DCCP_OPT_NO_ERR`. -/
def accepted (calls : List Call) (results : List ℤ) : List (BitVec 8 × List (BitVec 8)) :=
  ((calls.zip results).filter fun done => done.2 = noErr).map fun done => done.1.option

/-- `nextOption` again and again, each time with an array of the given size. -/
def walker : Machine DCCPOptions ℕ (ℤ × Option (BitVec 8 × List (BitVec 8))) where
  step o maxSize := some ((o.nextOption maxSize).2.2, (o.nextOption maxSize).1, (o.nextOption maxSize).2.1)

/-- What a walk is for: the options one after another, and one that does not fit into the array is kept for the next call. -/
def walkOf : List (BitVec 8 × List (BitVec 8)) → List ℕ → List (ℤ × Option (BitVec 8 × List (BitVec 8)))
  | _, [] => []
  | [], _ :: sizes => (errNotFound, none) :: walkOf [] sizes
  | option :: rest, maxSize :: sizes =>
    if option.2.length ≤ maxSize then ((option.2.length : ℤ), some option) :: walkOf rest sizes
    else (errSize, none) :: walkOf (option :: rest) sizes

/-- The first option of a type. -/
def lookupOf (type : BitVec 8) (maxSize : ℕ) (l : List (BitVec 8 × List (BitVec 8))) : ℤ × Option (List (BitVec 8)) :=
  match l.find? fun option => option.1 = type with
  | none => (errNotFound, none)
  | some option => if option.2.length ≤ maxSize then ((option.2.length : ℤ), some option.2) else (errSize, none)

variable {o w : DCCPOptions} {l found rest : List (BitVec 8 × List (BitVec 8))} {option : BitVec 8 × List (BitVec 8)} {type : BitVec 8}
  {maxSize : ℕ}

theorem Carries.answer_adds (carries : Carries o l) (request : Call) : o.Adds l request.option (o.answer request) := by
  cases request with
  | addOption type data => exact carries.addOption_adds (narrowed data)
  | addFeatureOption type featNum data => exact carries.addFeatureOption_adds (narrowed data)

theorem accepted_cons (request : Call) (calls : List Call) (result : ℤ) (results : List ℤ) : accepted (request :: calls) (result :: results) =
    if result = noErr then request.option :: accepted calls results else accepted calls results := by
  unfold accepted
  rw [List.zip_cons_cons, List.filter_cons]
  simp only [decide_eq_true_eq]
  split_ifs <;> rfl

/-- The buffer carries the options that were accepted. -/
theorem Carries.run {calls : List Call} {results : List ℤ} (carries : Carries o l) (run : adder.run o calls = some (w, results)) :
    Carries w (l ++ accepted calls results) := by
  induction calls generalizing o l results with
  | nil =>
    cases Option.some.inj run
    rwa [accepted, List.zip_nil_left, List.filter_nil, List.map_nil, List.append_nil]
  | cons request calls ih =>
    have taken : adder.step o request = some ((o.answer request).2, (o.answer request).1) := rfl
    rw [Machine.run_cons taken] at run
    obtain ⟨last, finished, joined⟩ := Option.map_eq_some_iff.mp run
    cases joined
    rw [accepted_cons]
    rcases carries.answer_adds request with ⟨good, carries'⟩ | ⟨bad, same⟩
    · rw [if_pos good, ← List.singleton_append, ← List.append_assoc]
      exact ih carries' finished
    · rw [if_neg bad]
      rw [same] at finished
      exact ih carries finished

/-- A walk stands behind the options that it has found. -/
structure WalkAt (o : DCCPOptions) (found : List (BitVec 8 × List (BitVec 8))) (w : DCCPOptions) : Prop where
  bytes : w.bytes = o.bytes
  size : w.size = o.size
  current : w.current = (found.flatMap bytesOf).length

theorem WalkAt.placed (walk : WalkAt o found w) (carries : Carries o (found ++ option :: rest)) :
    w.Placed (found.flatMap bytesOf) option := by
  have here : w.bytes = found.flatMap bytesOf ++ bytesOf option ++ rest.flatMap bytesOf := by
    rw [walk.bytes, carries.bytes, List.flatMap_append, List.flatMap_cons, List.append_assoc]
  exact DCCPOptions.placed here (carries.wellFormed option (by simp))

theorem WalkAt.next (walk : WalkAt o found w) (carries : Carries o (found ++ option :: rest)) (fits : option.2.length ≤ maxSize) :
    ∃ x, w.nextOption maxSize = ((option.2.length : ℤ), some option, x) ∧ WalkAt o (found ++ [option]) x := by
  refine ⟨_, (nextOption_placed walk.current (walk.placed carries)).trans (if_pos fits), walk.bytes, walk.size, ?_⟩
  rw [List.flatMap_append, List.flatMap_singleton]

theorem WalkAt.refused (walk : WalkAt o found w) (carries : Carries o (found ++ option :: rest)) (fits : ¬ option.2.length ≤ maxSize) :
    w.nextOption maxSize = (errSize, none, w) :=
  (nextOption_placed walk.current (walk.placed carries)).trans (if_neg fits)

theorem WalkAt.ended (walk : WalkAt o found w) (carries : Carries o found) : w.nextOption maxSize = (errNotFound, none, w) := by
  have total : o.size = (found.flatMap bytesOf).length := by rw [← length_bytes, carries.bytes]
  unfold nextOption
  rw [if_neg (by rw [walk.current, errWalk]; omega), if_pos (by rw [walk.current, walk.size, total])]

/-- A refused call leaves the walk where it is. -/
theorem WalkAt.stays (walk : WalkAt o found w) (carries : Carries o (found ++ rest)) (refused : (w.nextOption maxSize).1 = errSize) :
    (w.nextOption maxSize).2.2 = w := by
  cases rest with
  | nil => rw [walk.ended (by rwa [List.append_nil] at carries)]
  | cons option rest =>
    by_cases fits : option.2.length ≤ maxSize
    · obtain ⟨x, next, _⟩ := walk.next carries fits
      rw [next] at refused
      exact absurd refused (by rw [errSize]; dsimp only; omega)
    · rw [walk.refused carries fits]

/-- A walk finds the options that it has not found yet. -/
theorem WalkAt.run {sizes : List ℕ} (walk : WalkAt o found w) (carries : Carries o (found ++ rest)) :
    ∃ x found' rest', walker.run w sizes = some (x, walkOf rest sizes) ∧ WalkAt o found' x ∧ found' ++ rest' = found ++ rest := by
  induction sizes generalizing found rest w with
  | nil =>
    refine ⟨w, found, rest, ?_, walk, rfl⟩
    rw [walkOf]
    rfl
  | cons maxSize sizes ih =>
    have taken : walker.step w maxSize = some ((w.nextOption maxSize).2.2, (w.nextOption maxSize).1, (w.nextOption maxSize).2.1) := rfl
    cases rest with
    | nil =>
      have ended : w.nextOption maxSize = _ := walk.ended (by rwa [List.append_nil] at carries)
      rw [ended] at taken
      obtain ⟨x, found', rest', run, walk', same⟩ := ih walk carries
      exact ⟨x, found', rest', by rw [Machine.run_cons taken, run]; rfl, walk', same⟩
    | cons option rest =>
      by_cases fits : option.2.length ≤ maxSize
      · obtain ⟨y, next, after⟩ := walk.next carries fits
        rw [next] at taken
        have carries' : Carries o ((found ++ [option]) ++ rest) := by rwa [List.append_assoc, List.singleton_append]
        obtain ⟨x, found', rest', run, walk', same⟩ := ih after carries'
        refine ⟨x, found', rest', ?_, walk', by rw [same, List.append_assoc, List.singleton_append]⟩
        rw [Machine.run_cons taken, run, walkOf, if_pos fits]
        rfl
      · rw [walk.refused carries fits] at taken
        obtain ⟨x, found', rest', run, walk', same⟩ := ih walk carries
        refine ⟨x, found', rest', ?_, walk', same⟩
        rw [Machine.run_cons taken, run, walkOf, if_neg fits]
        rfl

/-- With an array that is large enough, a walk finds every option and then none. -/
theorem walkOf_replicate (fits : ∀ option ∈ l, option.2.length ≤ maxSize) (n : ℕ) : walkOf l (List.replicate (l.length + n) maxSize) =
    (l.map fun option => ((option.2.length : ℤ), some option)) ++ List.replicate n (errNotFound, none) := by
  induction l with
  | nil =>
    rw [List.length_nil, Nat.zero_add, List.map_nil, List.nil_append]
    induction n with
    | zero => rfl
    | succ n ih => rw [List.replicate_succ, List.replicate_succ, walkOf, ih]
  | cons option l ih =>
    rw [List.length_cons, Nat.succ_add_eq_add_succ, Nat.add_succ, List.replicate_succ, walkOf, if_pos (fits option List.mem_cons_self),
      ih fun one member => fits one (List.mem_cons_of_mem _ member)]
    rfl

/-- From behind options of other types, the search finds the first one of its type. -/
theorem Carries.getOptionFrom_eq {fuel : ℕ} (carries : Carries o (found ++ rest)) (enough : rest.length < fuel) :
    getOptionFrom o type maxSize fuel (found.flatMap bytesOf).length = some (lookupOf type maxSize rest) := by
  obtain ⟨fuel, rfl⟩ : ∃ f, fuel = f + 1 := ⟨fuel - 1, by omega⟩
  induction rest generalizing found fuel with
  | nil =>
    have total : o.size = (found.flatMap bytesOf).length := by rw [← length_bytes, carries.bytes, List.append_nil]
    rw [getOptionFrom, if_pos (by rw [total])]
    rfl
  | cons option rest ih =>
    rw [List.length_cons] at enough
    obtain ⟨f, rfl⟩ : ∃ f, fuel = f + 1 := ⟨fuel - 1, by omega⟩
    have bytes : o.bytes = found.flatMap bytesOf ++ bytesOf option ++ rest.flatMap bytesOf := by
      rw [carries.bytes, List.flatMap_append, List.flatMap_cons, List.append_assoc]
    have here := DCCPOptions.placed bytes (carries.wellFormed option (by simp))
    have inside := here.inside
    have carries' : Carries o ((found ++ [option]) ++ rest) := by rwa [List.append_assoc, List.singleton_append]
    have later := ih carries' f (by omega)
    rw [List.flatMap_append, List.flatMap_singleton, List.length_append, here.length] at later
    rw [getOptionFrom, if_neg (by omega), here.type]
    by_cases short : option.1.toNat < singleByteLimit
    · rw [if_pos short] at later ⊢
      by_cases same : option.1 = type
      · have first : (option :: rest).find? (fun option => option.1 = type) = some option := List.find?_cons_of_pos (by simpa using same)
        have none : option.2 = [] := here.single short
        rw [if_pos same, lookupOf, first]
        dsimp only
        rw [none, if_pos (by rw [List.length_nil]; exact Nat.zero_le _)]
        rfl
      · have first : (option :: rest).find? (fun option => option.1 = type) = rest.find? fun option => option.1 = type :=
          List.find?_cons_of_neg (by simpa using same)
        rw [if_neg same, lookupOf, first]
        exact later
    · rw [if_neg short] at later ⊢
      dsimp only
      rw [here.dataSize short, Int.toNat_natCast, here.data short]
      by_cases same : option.1 = type
      · have first : (option :: rest).find? (fun option => option.1 = type) = some option := List.find?_cons_of_pos (by simpa using same)
        rw [if_pos same, lookupOf, first]
        simp only [Nat.cast_le]
        split_ifs <;> rfl
      · have first : (option :: rest).find? (fun option => option.1 = type) = rest.find? fun option => option.1 = type :=
          List.find?_cons_of_neg (by simpa using same)
        rw [if_neg same, lookupOf, first]
        rw [← lookupOf, ← later]
        congr 1
        push_cast
        ring

theorem Carries.getOption_eq (carries : Carries o l) : o.getOption type maxSize = some (lookupOf type maxSize l) := by
  have length := length_flatMap_bytesOf l
  rw [← carries.bytes, length_bytes] at length
  have whole : Carries o ([] ++ l) := carries
  exact whole.getOptionFrom_eq (Nat.lt_succ_of_le length)

theorem adder_run (calls : List Call) (o : DCCPOptions) : ∃ w results, adder.run o calls = some (w, results) := by
  induction calls generalizing o with
  | nil => exact ⟨o, [], rfl⟩
  | cons request calls ih =>
    obtain ⟨w, results, run⟩ := ih (o.answer request).2
    have taken : adder.step o request = some ((o.answer request).2, (o.answer request).1) := rfl
    exact ⟨w, _ :: results, by rw [Machine.run_cons taken, run]; rfl⟩

/-- After any calls: the next call appends its option or leaves the buffer as it is; a walk finds the accepted options
one after another, whatever the sizes of the arrays, and stays where it is if one does not fit; with arrays that are
large enough it finds exactly these and then none; and `getOption` finds the first of its type. -/
theorem options_walked (junk : ℕ → BitVec 8) (size : ℕ) (calls : List Call) :
    ∃ o results, adder.run (new junk size) calls = some (o, results) ∧
      (∀ request, (o.answer request).1 = noErr ∧ (o.answer request).2.bytes = o.bytes ++ bytesOf request.option ∨
        (o.answer request).1 ≠ noErr ∧ (o.answer request).2 = o) ∧
      (∀ sizes, ∃ w, walker.run o.startOptionWalk sizes = some (w, walkOf (accepted calls results) sizes) ∧
        ∀ maxSize, (w.nextOption maxSize).1 = errSize → (w.nextOption maxSize).2.2 = w) ∧
      (∀ maxSize n, (∀ option ∈ accepted calls results, option.2.length ≤ maxSize) → ∃ w,
        walker.run o.startOptionWalk (List.replicate ((accepted calls results).length + n) maxSize) =
          some (w, ((accepted calls results).map fun option => ((option.2.length : ℤ), some option)) ++
            List.replicate n (errNotFound, none))) ∧
      ∀ type maxSize, o.getOption type maxSize = some (lookupOf type maxSize (accepted calls results)) := by
  obtain ⟨o, results, run⟩ := adder_run calls (new junk size)
  have carries : Carries o (accepted calls results) := by
    have whole := (new_carries junk size).run run
    rwa [List.nil_append] at whole
  have start : WalkAt o [] o.startOptionWalk := ⟨rfl, rfl, rfl⟩
  have fromStart : Carries o ([] ++ accepted calls results) := carries
  refine ⟨o, results, run, fun request => ?_, fun sizes => ?_, fun maxSize n fits => ?_, fun type maxSize => carries.getOption_eq⟩
  · refine (carries.answer_adds request).imp_left fun added => ⟨added.1, ?_⟩
    rw [added.2.bytes, carries.bytes, List.flatMap_append, List.flatMap_singleton]
  · obtain ⟨w, found, rest, walked, walk, same⟩ := start.run fromStart
    rw [← same] at fromStart
    exact ⟨w, walked, fun maxSize refused => walk.stays fromStart refused⟩
  · obtain ⟨w, _, _, walked, _⟩ := start.run fromStart
    rw [walkOf_replicate fits n] at walked
    exact ⟨w, walked⟩

end DCCPOptions

end Ns2
