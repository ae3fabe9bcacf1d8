import Mathlib.Data.List.TakeDrop
import Mathlib.Tactic.Ring

namespace Ns2

structure DCCPOptions where
  options : ℕ → BitVec 8
  size : ℕ
  maxSize : ℕ
  current : ℤ

namespace DCCPOptions

/-- `DCCP_OPT_SINGLE_BYTE_LIMIT`, `DCCP_OPT_MAX_LENGTH` and the types that the source names. -/
def singleByteLimit : ℕ := 32

def maxLength : ℕ := 255

def changeL : BitVec 8 := 33

def confirmR : BitVec 8 := 36

def ackVectorN0 : BitVec 8 := 37

def ackVectorN1 : BitVec 8 := 38

/-- The results of the calls. -/
def noErr : ℤ := 0

def errSize : ℤ := -1

def errFull : ℤ := -2

def errNotFound : ℤ := -3

def errType : ℤ := -4

def errWalk : ℤ := -5

/-- A new array, with whatever it happens to hold. -/
def new (junk : ℕ → BitVec 8) (size : ℕ) : DCCPOptions := ⟨junk, 0, size % 2 ^ 16, errWalk⟩

/-- `options_[size_++] = byte` -/
def push (o : DCCPOptions) (byte : BitVec 8) : DCCPOptions :=
  { o with options := Function.update o.options o.size byte, size := o.size + 1 }

/-- `data` has at least `dataSize` bytes. -/
def addOption (type : BitVec 8) (data : List (BitVec 8)) (dataSize : BitVec 8) (o : DCCPOptions) : ℤ × DCCPOptions :=
  let length := if dataSize = 0 then 1 else dataSize.toNat + 2
  if type.toNat < singleByteLimit ∧ 0 < dataSize.toNat ∨ singleByteLimit ≤ type.toNat ∧ dataSize = 0 ∨ maxLength < length then (errSize, o)
  else if o.maxSize < o.size + length then (errFull, o)
  else
    let o := o.push type
    (noErr, if 0 < dataSize.toNat then (data.take dataSize.toNat).foldl push (o.push (BitVec.ofNat 8 length)) else o)

def addFeatureOption (type featNum : BitVec 8) (data : List (BitVec 8)) (dataSize : BitVec 8) (o : DCCPOptions) : ℤ × DCCPOptions :=
  let length := dataSize.toNat + 3
  if dataSize = 0 ∨ maxLength < length then (errSize, o)
  else if type < changeL ∨ confirmR < type then (errType, o)
  else if o.maxSize < o.size + length then (errFull, o)
  else (noErr, (data.take dataSize.toNat).foldl push (((o.push type).push (BitVec.ofNat 8 length)).push featNum))

def byte (o : DCCPOptions) (place : ℤ) : BitVec 8 := o.options place.toNat

def startOptionWalk (o : DCCPOptions) : DCCPOptions := { o with current := 0 }

/-- Beside its result, a call hands out the type and the data of the option that it finds. -/
def nextOption (maxSize : ℕ) (o : DCCPOptions) : ℤ × Option (BitVec 8 × List (BitVec 8)) × DCCPOptions :=
  if o.current = errWalk then (errWalk, none, o)
  else if o.size ≤ o.current then (errNotFound, none, o)
  else
    let type := o.byte o.current
    if type.toNat < singleByteLimit then (noErr, some (type, []), { o with current := o.current + 1 })
    else
      let dataSize : ℤ := (o.byte (o.current + 1)).toNat - 2
      if dataSize ≤ maxSize then
        (dataSize, some (type, (List.range dataSize.toNat).map fun i : ℕ => o.byte (o.current + 2 + i)),
          { o with current := o.current + 2 + dataSize })
      else (errSize, none, o)

/-- The options that `parseOptions` of an agent hands to `processOption`, if
none of them ends the parse. -/
def parseOptions : ℕ → DCCPOptions → List (BitVec 8 × List (BitVec 8))
  | 0, _ => []
  | fuel + 1, o =>
    match o.nextOption maxLength with
    | (result, some option, o) => if 0 ≤ result then option :: parseOptions fuel o else []
    | _ => []

/-- The bytes in use. -/
def bytes (o : DCCPOptions) : List (BitVec 8) := (List.range o.size).map o.options

/-- The bytes of one option. -/
def bytesOf (option : BitVec 8 × List (BitVec 8)) : List (BitVec 8) :=
  if option.2 = [] then [option.1] else option.1 :: BitVec.ofNat 8 (option.2.length + 2) :: option.2

/-- An option of one byte has no data, and every other one has some, but not too much. -/
def WellFormed (option : BitVec 8 × List (BitVec 8)) : Prop :=
  if option.1.toNat < singleByteLimit then option.2 = [] else option.2 ≠ [] ∧ option.2.length + 2 ≤ maxLength

/-- The buffer holds these options, one after another. -/
structure Carries (o : DCCPOptions) (l : List (BitVec 8 × List (BitVec 8))) : Prop where
  bytes : o.bytes = l.flatMap bytesOf
  wellFormed : ∀ option ∈ l, WellFormed option
  limit : o.size ≤ o.maxSize

variable {o : DCCPOptions} {before after data : List (BitVec 8)} {b type featNum dataSize : BitVec 8} {l : List (BitVec 8 × List (BitVec 8))}
  {option : BitVec 8 × List (BitVec 8)}

theorem length_bytes : o.bytes.length = o.size := by simp [bytes]

theorem push_bytes (o : DCCPOptions) (b : BitVec 8) : (o.push b).bytes = o.bytes ++ [b] := by
  unfold bytes push
  dsimp only
  rw [List.range_succ, List.map_append, List.map_singleton, Function.update_self]
  congr 1
  refine List.map_congr_left fun i inside => ?_
  exact Function.update_of_ne (List.mem_range.mp inside).ne _ _

theorem pushes_bytes (o : DCCPOptions) (data : List (BitVec 8)) : (data.foldl push o).bytes = o.bytes ++ data := by
  induction data generalizing o with
  | nil => exact (List.append_nil _).symm
  | cons b data ih => rw [List.foldl_cons, ih, push_bytes, List.append_assoc, List.singleton_append]

theorem pushes_maxSize (o : DCCPOptions) (data : List (BitVec 8)) : (data.foldl push o).maxSize = o.maxSize := by
  induction data generalizing o with
  | nil => rfl
  | cons b data ih => rw [List.foldl_cons, ih, push]

/-- An option that is added comes after the others. -/
theorem Carries.append {o' : DCCPOptions} (carries : Carries o l) (bytes : o'.bytes = o.bytes ++ bytesOf option) (fine : WellFormed option)
    (room : o.size + (bytesOf option).length ≤ o.maxSize) (same : o'.maxSize = o.maxSize) : Carries o' (l ++ [option]) where
  bytes := by rw [bytes, carries.bytes, List.flatMap_append, List.flatMap_singleton]
  wellFormed := by
    intro one member
    rcases List.mem_append.mp member with old | new
    · exact carries.wellFormed one old
    · rw [List.mem_singleton.mp new]
      exact fine
  limit := by
    rw [← length_bytes, bytes, List.length_append, length_bytes, same]
    exact room

theorem bytesOf_data (some : data ≠ []) : bytesOf (type, data) = type :: BitVec.ofNat 8 (data.length + 2) :: data := if_neg some

/-- An option with data is added if its type allows it and if it is not too
long for one option or for the buffer. -/
theorem Carries.addOption (carries : Carries o l) (long : singleByteLimit ≤ type.toNat) (some : dataSize ≠ 0)
    (length : dataSize.toNat + 2 ≤ maxLength) (room : o.size + (dataSize.toNat + 2) ≤ o.maxSize) (enough : dataSize.toNat ≤ data.length) :
    ∃ o', DCCPOptions.addOption type data dataSize o = (noErr, o') ∧ Carries o' (l ++ [(type, data.take dataSize.toNat)]) := by
  have positive : 0 < dataSize.toNat := by
    rw [Nat.pos_iff_ne_zero]
    exact fun none => some (BitVec.eq_of_toNat_eq none)
  have taken : (data.take dataSize.toNat).length = dataSize.toNat := List.length_take_of_le enough
  have nonempty : data.take dataSize.toNat ≠ [] := List.ne_nil_of_length_pos (by omega)
  unfold DCCPOptions.addOption
  dsimp only
  rw [if_neg some, if_neg (by rintro (⟨short, _⟩ | ⟨_, none⟩ | beyond) <;> first | exact some none | omega), if_neg (by omega), if_pos positive]
  refine ⟨_, rfl, carries.append ?_ ?_ ?_ ?_⟩
  · rw [pushes_bytes, push_bytes, push_bytes, bytesOf_data nonempty, taken]
    simp
  · rw [WellFormed, if_neg (not_lt.mpr long), taken]
    exact ⟨nonempty, length⟩
  · rw [bytesOf_data nonempty]
    simp only [List.length_cons, taken]
    omega
  · rw [pushes_maxSize]
    rfl

/-- What a call makes of the buffer: the option comes after the others, or nothing changes. -/
def Adds (o : DCCPOptions) (l : List (BitVec 8 × List (BitVec 8))) (option : BitVec 8 × List (BitVec 8)) (done : ℤ × DCCPOptions) : Prop :=
  done.1 = noErr ∧ Carries done.2 (l ++ [option]) ∨ done.1 ≠ noErr ∧ done.2 = o

/-- An option is refused, or it is one of a single byte or one with data. -/
theorem Carries.addOption_adds (carries : Carries o l) (enough : dataSize.toNat ≤ data.length) :
    o.Adds l (type, data.take dataSize.toNat) (DCCPOptions.addOption type data dataSize o) := by
  by_cases some : dataSize = 0
  · unfold DCCPOptions.addOption
    subst some
    dsimp only
    rw [if_pos (rfl : (0 : BitVec 8) = 0)]
    split
    · exact Or.inr ⟨(by decide : errSize ≠ noErr), rfl⟩
    · rename_i fine
      split
      · exact Or.inr ⟨(by decide : errFull ≠ noErr), rfl⟩
      · rename_i room
        rw [if_neg (by decide)]
        have short : type.toNat < singleByteLimit := by
          by_contra long
          exact fine (Or.inr (Or.inl ⟨not_lt.mp long, rfl⟩))
        have single : bytesOf (type, []) = [type] := if_pos rfl
        have none : data.take (BitVec.toNat (0 : BitVec 8)) = [] := rfl
        rw [none]
        refine Or.inl ⟨rfl, carries.append ?_ ?_ ?_ rfl⟩
        · rw [push_bytes, single]
        · rw [WellFormed, if_pos short]
        · rw [single, List.length_singleton]
          omega
  · by_cases fine : singleByteLimit ≤ type.toNat ∧ dataSize.toNat + 2 ≤ maxLength ∧ o.size + (dataSize.toNat + 2) ≤ o.maxSize
    · obtain ⟨long, length, room⟩ := fine
      obtain ⟨o', done, carries'⟩ := carries.addOption long some length room enough
      rw [done]
      exact Or.inl ⟨rfl, carries'⟩
    · have positive : 0 < dataSize.toNat := by
        rw [Nat.pos_iff_ne_zero]
        exact fun none => some (BitVec.eq_of_toNat_eq none)
      unfold DCCPOptions.addOption
      dsimp only
      rw [if_neg some]
      split
      · exact Or.inr ⟨(by decide : errSize ≠ noErr), rfl⟩
      · rename_i refused
        split
        · exact Or.inr ⟨(by decide : errFull ≠ noErr), rfl⟩
        · rename_i full
          refine absurd ⟨?_, ?_, ?_⟩ fine
          · by_contra short
            exact refused (Or.inl ⟨not_le.mp short, positive⟩)
          · by_contra beyond
            exact refused (Or.inr (Or.inr (not_le.mp beyond)))
          · omega

theorem Carries.addFeatureOption_adds (carries : Carries o l) (enough : dataSize.toNat ≤ data.length) :
    o.Adds l (type, featNum :: data.take dataSize.toNat) (DCCPOptions.addFeatureOption type featNum data dataSize o) := by
  unfold DCCPOptions.addFeatureOption
  dsimp only
  split
  · exact Or.inr ⟨(by decide : errSize ≠ noErr), rfl⟩
  rename_i size
  split
  · exact Or.inr ⟨(by decide : errType ≠ noErr), rfl⟩
  rename_i feature
  split
  · exact Or.inr ⟨(by decide : errFull ≠ noErr), rfl⟩
  rename_i room
  have taken : (data.take dataSize.toNat).length = dataSize.toNat := List.length_take_of_le enough
  have long : singleByteLimit ≤ type.toNat := by
    have low : changeL.toNat ≤ type.toNat := by
      by_contra less
      exact feature (Or.inl (not_le.mp less))
    have first : changeL.toNat = singleByteLimit + 1 := rfl
    omega
  have bytes : bytesOf (type, featNum :: data.take dataSize.toNat) =
      type :: BitVec.ofNat 8 (dataSize.toNat + 3) :: featNum :: data.take dataSize.toNat := by
    rw [bytesOf_data (List.cons_ne_nil _ _), List.length_cons, taken]
  refine Or.inl ⟨rfl, carries.append ?_ ?_ ?_ ?_⟩
  · rw [pushes_bytes, push_bytes, push_bytes, push_bytes, bytes]
    simp
  · rw [WellFormed, if_neg (not_lt.mpr long), List.length_cons, taken]
    refine ⟨List.cons_ne_nil _ _, ?_⟩
    by_contra beyond
    exact size (Or.inr (by omega))
  · rw [bytes]
    simp only [List.length_cons, taken]
    omega
  · rw [pushes_maxSize]
    rfl

theorem Carries.of_adds {done : ℤ × DCCPOptions} (carries : Carries o l) (adds : o.Adds l option done) : ∃ l', Carries done.2 l' := by
  rcases adds with ⟨_, carries'⟩ | ⟨_, same⟩
  · exact ⟨_, carries'⟩
  · exact ⟨l, same ▸ carries⟩

/-- What the owner of a buffer does with it before it goes on a packet. -/
inductive Call
  | addOption (type : BitVec 8) (data : List (BitVec 8))
  | addFeatureOption (type featNum : BitVec 8) (data : List (BitVec 8))

/-- The size of the data goes through a parameter of one byte. -/
def call (o : DCCPOptions) : Call → DCCPOptions
  | .addOption type data => (addOption type data (BitVec.ofNat 8 data.length) o).2
  | .addFeatureOption type featNum data => (addFeatureOption type featNum data (BitVec.ofNat 8 data.length) o).2

theorem narrowed (data : List (BitVec 8)) : (BitVec.ofNat 8 data.length).toNat ≤ data.length := by
  rw [BitVec.toNat_ofNat]
  exact Nat.mod_le _ _

theorem new_carries (junk : ℕ → BitVec 8) (size : ℕ) : Carries (new junk size) [] := ⟨rfl, by simp, Nat.zero_le _⟩

/-- Every buffer carries well-formed options only. -/
theorem built_carries (junk : ℕ → BitVec 8) (size : ℕ) (calls : List Call) : ∃ l, Carries (calls.foldl call (new junk size)) l := by
  have kept : ∀ o, (∃ l, Carries o l) → ∃ l, Carries (calls.foldl call o) l := by
    induction calls with
    | nil => exact fun o carries => carries
    | cons request calls ih =>
      rintro o ⟨l, carries⟩
      refine ih _ ?_
      cases request with
      | addOption type data => exact carries.of_adds (carries.addOption_adds (narrowed data))
      | addFeatureOption type featNum data => exact carries.of_adds (carries.addFeatureOption_adds (narrowed data))
  exact kept _ ⟨[], new_carries junk size⟩

theorem read (bytes : o.bytes = before ++ b :: after) : o.options before.length = b := by
  have inside : before.length < o.bytes.length := by rw [bytes]; simp
  have value : o.bytes.get ⟨before.length, inside⟩ = b := by simp [bytes]
  rw [← value]
  simp [DCCPOptions.bytes]

theorem reads (bytes : o.bytes = before ++ data ++ after) : (List.range data.length).map (fun i => o.options (before.length + i)) = data := by
  refine List.ext_getElem (by simp) ?_
  intro i _ inside
  have split : o.bytes = (before ++ data.take i) ++ data[i] :: (data.drop (i + 1) ++ after) := by
    rw [bytes, List.append_assoc, List.append_assoc, ← List.cons_append, List.cons_getElem_drop_succ, ← List.append_assoc (data.take i),
      List.take_append_drop]
  have value := read split
  rw [List.length_append, List.length_take_of_le inside.le] at value
  simpa using value

/-- What stands in the buffer at an option. -/
structure Placed (o : DCCPOptions) (before : List (BitVec 8)) (option : BitVec 8 × List (BitVec 8)) : Prop where
  inside : before.length < o.size
  type : o.byte before.length = option.1
  single : option.1.toNat < singleByteLimit → option.2 = []
  dataSize : ¬ option.1.toNat < singleByteLimit → ((o.byte (before.length + 1)).toNat : ℤ) - 2 = option.2.length
  data : ¬ option.1.toNat < singleByteLimit →
    (List.range option.2.length).map (fun i : ℕ => o.byte (before.length + 2 + i)) = option.2
  length : (bytesOf option).length = if option.1.toNat < singleByteLimit then 1 else 2 + option.2.length

theorem placed (bytes : o.bytes = before ++ bytesOf option ++ after) (fine : WellFormed option) : o.Placed before option := by
  obtain ⟨type, data⟩ := option
  have size : o.size = before.length + (bytesOf (type, data)).length + after.length := by
    rw [← length_bytes, bytes, List.length_append, List.length_append]
  by_cases short : type.toNat < singleByteLimit
  · rw [WellFormed, if_pos short] at fine
    dsimp only at fine
    subst fine
    have single : bytesOf (type, []) = [type] := if_pos rfl
    rw [single] at bytes size
    rw [List.length_singleton] at size
    refine ⟨by omega, read (by rw [bytes, List.append_assoc]; rfl), fun _ => rfl, fun long => absurd short long,
      fun long => absurd short long, ?_⟩
    rw [single, if_pos short, List.length_singleton]
  · rw [WellFormed, if_neg short] at fine
    obtain ⟨nonempty, length⟩ := fine
    dsimp only at nonempty length
    rw [bytesOf_data nonempty] at bytes size
    have second : o.byte (before.length + 1) = BitVec.ofNat 8 (data.length + 2) := by
      have split : o.bytes = (before ++ [type]) ++ BitVec.ofNat 8 (data.length + 2) :: (data ++ after) := by rw [bytes]; simp
      have value := read split
      rwa [List.length_append, List.length_singleton] at value
    have limit : maxLength = 255 := rfl
    simp only [List.length_cons] at size
    refine ⟨by omega, read (by rw [bytes, List.append_assoc]; rfl), fun single => absurd single short, fun _ => ?_, fun _ => ?_, ?_⟩
    · rw [second, BitVec.toNat_ofNat, Nat.mod_eq_of_lt (by omega)]
      push_cast
      ring
    · have split : o.bytes = (before ++ [type, BitVec.ofNat 8 (data.length + 2)]) ++ data ++ after := by rw [bytes]; simp
      have value := reads split
      rw [List.length_append] at value
      exact value
    · rw [bytesOf_data nonempty, if_neg short, List.length_cons, List.length_cons]
      exact Nat.add_comm data.length 2

/-- A walk that stands before an option finds it and goes on behind it, if the array has room for its data. -/
theorem nextOption_placed {maxSize : ℕ} (current : o.current = before.length) (here : o.Placed before option) :
    o.nextOption maxSize = if option.2.length ≤ maxSize then
      ((option.2.length : ℤ), some option, { o with current := (before ++ bytesOf option).length }) else (errSize, none, o) := by
  have inside := here.inside
  unfold nextOption
  rw [current, if_neg (by rw [errWalk]; omega), if_neg (by omega), here.type]
  dsimp only
  rw [List.length_append, here.length]
  by_cases short : option.1.toNat < singleByteLimit
  · rw [if_pos short, if_pos short, here.single short, if_pos (show ([] : List (BitVec 8)).length ≤ maxSize from Nat.zero_le _)]
    refine Prod.ext rfl (Prod.ext (congrArg some ?_) rfl)
    exact Prod.ext rfl (here.single short).symm
  · rw [if_neg short, if_neg short, here.dataSize short, Int.toNat_natCast, here.data short]
    simp only [Nat.cast_le]
    congr 3
    push_cast
    ring_nf

theorem nextOption_eq (current : o.current = before.length) (bytes : o.bytes = before ++ bytesOf option ++ after) (fine : WellFormed option) :
    ∃ result, 0 ≤ result ∧ o.nextOption maxLength = (result, some option, { o with current := (before ++ bytesOf option).length }) := by
  have small : option.2.length ≤ maxLength := by
    unfold WellFormed at fine
    split at fine
    · rw [fine]
      exact Nat.zero_le _
    · omega
  exact ⟨option.2.length, Int.natCast_nonneg _, (nextOption_placed current (placed bytes fine)).trans (if_pos small)⟩

/-- From behind the options that it has found, a walk finds the other ones. -/
theorem Carries.parse_rest {found rest : List (BitVec 8 × List (BitVec 8))} {fuel : ℕ} {w : DCCPOptions} (carries : Carries o (found ++ rest))
    (enough : rest.length < fuel) (bytes : w.bytes = o.bytes) (size : w.size = o.size) (current : w.current = (found.flatMap bytesOf).length) :
    parseOptions fuel w = rest := by
  obtain ⟨fuel, rfl⟩ : ∃ f, fuel = f + 1 := ⟨fuel - 1, by omega⟩
  induction rest generalizing found w fuel with
  | nil =>
    have total : o.size = (found.flatMap bytesOf).length := by rw [← length_bytes, carries.bytes, List.append_nil]
    have ended : w.nextOption maxLength = (errNotFound, none, w) := by
      unfold nextOption
      rw [if_neg (by rw [current, errWalk]; omega), if_pos (by rw [current, size, total])]
    rw [parseOptions, ended]
  | cons option rest ih =>
    rw [List.length_cons] at enough
    have here : w.bytes = found.flatMap bytesOf ++ bytesOf option ++ rest.flatMap bytesOf := by
      rw [bytes, carries.bytes, List.flatMap_append, List.flatMap_cons, List.append_assoc]
    obtain ⟨result, good, next⟩ := nextOption_eq current here (carries.wellFormed option (by simp))
    obtain ⟨f, rfl⟩ : ∃ f, fuel = f + 1 := ⟨fuel - 1, by omega⟩
    have carries' : Carries o ((found ++ [option]) ++ rest) := by rwa [List.append_assoc, List.singleton_append]
    rw [parseOptions, next]
    dsimp only
    rw [if_pos good]
    refine congrArg (option :: ·) (ih carries' ?_ ?_ ?_ f (by omega))
    · exact bytes
    · exact size
    · simp

theorem length_flatMap_bytesOf (l : List (BitVec 8 × List (BitVec 8))) : l.length ≤ (l.flatMap bytesOf).length := by
  induction l with
  | nil => exact Nat.zero_le _
  | cons option l ih =>
    have positive : 1 ≤ (bytesOf option).length := by
      unfold bytesOf
      split <;> simp
    rw [List.flatMap_cons, List.length_cons, List.length_append]
    omega

/-- A walk through a buffer finds the options that it carries. -/
theorem Carries.parse (carries : Carries o l) : parseOptions (o.size + 1) o.startOptionWalk = l := by
  have length := length_flatMap_bytesOf l
  rw [← carries.bytes, length_bytes] at length
  have whole : Carries o ([] ++ l) := carries
  exact whole.parse_rest (Nat.lt_succ_of_le length) rfl rfl rfl

end DCCPOptions

end Ns2
