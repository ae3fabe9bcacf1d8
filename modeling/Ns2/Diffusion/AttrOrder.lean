import Ns2.Diffusion.Attrs
import Ns2.Library.ByteStrings
import Mathlib.Algebra.Order.Ring.Rat

namespace Ns2

/-- How a host reads numbers from their bytes. The values of floats are rational numbers. -/
structure Host where
  order : ByteOrder
  float32 : List (BitVec 8) → ℚ
  float64 : List (BitVec 8) → ℚ

namespace NRAttribute

open ByteStrings

variable (host : Host) (a b : NRAttribute)

def int : ℤ := (a.getVal host.order).toInt

def float : ℚ := host.float32 (a.val.take 4)

def double : ℚ := host.float64 (a.val.take 8)

def isSameKey : Bool := a.type = b.type ∧ a.key = b.key

/-- `min(len_, attr->getLen())` -/
def minLen : ℕ := (min a.len.toInt b.len.toInt).toNat

/-- `none` is a call of `abort`, here and below. -/
def isEQ : Option Bool :=
  if !a.isSameKey b then none
  else if a.type = INT32_TYPE then some (a.int host = b.int host)
  else if a.type = FLOAT32_TYPE then some (a.float host = b.float host)
  else if a.type = FLOAT64_TYPE then some (a.double host = b.double host)
  else if a.type = STRING_TYPE then
    if a.len ≠ b.len then some false else some (strncmp a.len.toInt.toNat a.val b.val = .eq)
  else if a.type = BLOB_TYPE then
    if a.len ≠ b.len then some false else some (memcmp a.len.toInt.toNat a.val b.val = .eq)
  else none

def isGT : Option Bool :=
  if !a.isSameKey b then none
  else if a.type = INT32_TYPE then some (a.int host > b.int host)
  else if a.type = FLOAT32_TYPE then some (a.float host > b.float host)
  else if a.type = FLOAT64_TYPE then some (a.double host > b.double host)
  else if a.type = STRING_TYPE then some (strncmp (a.minLen b) a.val b.val ≠ .eq)
  else if a.type = BLOB_TYPE then
    let cmp := memcmp (a.minLen b) a.val b.val
    if cmp = .gt then some true
    else if cmp = .eq ∧ a.len.toInt > b.len.toInt then some true
    else some false
  else none

def isGE : Option Bool :=
  if !a.isSameKey b then none
  else if a.type = INT32_TYPE then some (a.int host ≥ b.int host)
  else if a.type = FLOAT32_TYPE then some (a.float host ≥ b.float host)
  else if a.type = FLOAT64_TYPE then some (a.double host ≥ b.double host)
  else if a.type = STRING_TYPE then some (strcmp a.val b.val ≠ .lt)
  else if a.type = BLOB_TYPE then
    let cmp := memcmp (a.minLen b) a.val b.val
    if cmp ≠ .lt then some true else some false
  else none

def isNE : Option Bool := (a.isEQ host b).map (!·)

def isLT : Option Bool := (a.isGE host b).map (!·)

def isLE : Option Bool := (a.isGT host b).map (!·)

/-- The six comparisons are those of one linear order. -/
@[mk_iff] structure Consistent : Prop where
  exactlyOne : (a.isLT host b = some true ∧ a.isEQ host b ≠ some true ∧ a.isGT host b ≠ some true) ∨
    (a.isLT host b ≠ some true ∧ a.isEQ host b = some true ∧ a.isGT host b ≠ some true) ∨
    (a.isLT host b ≠ some true ∧ a.isEQ host b ≠ some true ∧ a.isGT host b = some true)
  ge : a.isGE host b = some true ↔ a.isGT host b = some true ∨ a.isEQ host b = some true
  le : a.isLE host b = some true ↔ a.isLT host b = some true ∨ a.isEQ host b = some true
  converse : a.isGT host b = some true ↔ b.isLT host a = some true

/-- What the answers must be for that. -/
def Coherent (eq gt ge ge' : Bool) : Prop :=
  ((!ge && !eq && !gt) || (ge && eq && !gt) || (ge && !eq && gt)) = true ∧ ge = (gt || eq) ∧ (!gt) = (!ge || eq) ∧ gt = !ge'

instance (eq gt ge ge' : Bool) : Decidable (Coherent eq gt ge ge') := inferInstanceAs (Decidable (_ ∧ _ ∧ _ ∧ _))

variable {host a b} {eq gt ge ge' : Bool}

theorem consistent_iff_coherent (isEQ : a.isEQ host b = some eq) (isGT : a.isGT host b = some gt) (isGE : a.isGE host b = some ge)
    (isGE' : b.isGE host a = some ge') : Consistent host a b ↔ Coherent eq gt ge ge' := by
  rw [consistent_iff, isLT, isLE, isLT, isEQ, isGT, isGE, isGE']
  cases eq <;> cases gt <;> cases ge <;> cases ge' <;> decide

/-- Numbers in an order. -/
theorem coherent_linear {α : Type*} [LinearOrder α] (x y : α) : Coherent (x = y) (x > y) (x ≥ y) (y ≥ x) := by
  rcases lt_trichotomy x y with less | same | more
  · rw [decide_eq_false less.ne, decide_eq_false less.not_gt, decide_eq_false (not_le.mpr less), decide_eq_true less.le]
    decide
  · rw [decide_eq_true same, decide_eq_false same.not_gt, decide_eq_true same.ge, decide_eq_true same.le]
    decide
  · rw [decide_eq_false more.ne', decide_eq_true more, decide_eq_true more.le, decide_eq_false (not_le.mpr more)]
    decide

/-- Strings: `isGT` tells only whether they differ. -/
theorem coherent_string (o : Ordering) :
    Coherent (o = .eq) (o ≠ .eq) (o ≠ .lt) (o.swap ≠ .lt) ↔ o ≠ .lt := by
  cases o <;> decide

/-- Blobs: `isGE` does not look at the lengths. -/
theorem coherent_blob (o : Ordering) (m n : ℤ) : Coherent (m = n ∧ o = .eq) (o = .gt ∨ (o = .eq ∧ m > n)) (o ≠ .lt) (o.swap ≠ .lt) ↔
    (o = .eq → m = n) := by
  rcases lt_trichotomy m n with less | same | more
  · simp only [less.ne, less.not_gt]
    cases o <;> decide
  · simp only [same, lt_irrefl]
    cases o <;> decide
  · simp only [more.ne', more]
    cases o <;> decide

theorem isSameKey_iff : a.isSameKey b = true ↔ a.type = b.type ∧ a.key = b.key := decide_eq_true_iff

section Pairs

variable (wellFormed : a.WellFormed) (wellFormed' : b.WellFormed) (same : a.isSameKey b = true)

include same

theorem isSameKey_symm : b.isSameKey a = true := isSameKey_iff.mpr ⟨(isSameKey_iff.mp same).1.symm, (isSameKey_iff.mp same).2.symm⟩

theorem consistent_int (int : a.type = INT32_TYPE) : Consistent host a b := by
  have int' : b.type = INT32_TYPE := (isSameKey_iff.mp same).1.symm.trans int
  have other := isSameKey_symm same
  refine (consistent_iff_coherent ?_ ?_ ?_ ?_).mpr (coherent_linear (a.int host) (b.int host)) <;>
    simp only [isEQ, isGT, isGE, same, other, int, int', Bool.not_true, Bool.false_eq_true, if_false, if_true]

theorem consistent_float (float : a.type = FLOAT32_TYPE) : Consistent host a b := by
  have float' : b.type = FLOAT32_TYPE := (isSameKey_iff.mp same).1.symm.trans float
  have other := isSameKey_symm same
  have apart : FLOAT32_TYPE ≠ INT32_TYPE := by decide
  refine (consistent_iff_coherent ?_ ?_ ?_ ?_).mpr (coherent_linear (a.float host) (b.float host)) <;>
    simp only [isEQ, isGT, isGE, same, other, float, float', apart, Bool.not_true, Bool.false_eq_true, if_false, if_true]

theorem consistent_double (double : a.type = FLOAT64_TYPE) : Consistent host a b := by
  have double' : b.type = FLOAT64_TYPE := (isSameKey_iff.mp same).1.symm.trans double
  have other := isSameKey_symm same
  have apart : FLOAT64_TYPE ≠ INT32_TYPE ∧ FLOAT64_TYPE ≠ FLOAT32_TYPE := by decide
  refine (consistent_iff_coherent ?_ ?_ ?_ ?_).mpr (coherent_linear (a.double host) (b.double host)) <;>
    simp only [isEQ, isGT, isGE, same, other, double, double', apart, Bool.not_true, Bool.false_eq_true, if_false, if_true]

include wellFormed wellFormed'

omit same in
theorem minLen_eq : a.minLen b = min a.val.length b.val.length := by
  rw [minLen, wellFormed.len, wellFormed'.len]
  omega

omit same in
theorem len_ne_iff : a.len ≠ b.len ↔ a.val.length ≠ b.val.length := by
  rw [not_iff_not, ← wellFormed.toNat_len, ← wellFormed'.toNat_len]
  exact BitVec.toNat_inj.symm

theorem consistent_string (string : a.type = STRING_TYPE) : Consistent host a b ↔ ¬a.val < b.val := by
  have string' : b.type = STRING_TYPE := (isSameKey_iff.mp same).1.symm.trans string
  have other := isSameKey_symm same
  have apart : STRING_TYPE ≠ INT32_TYPE ∧ STRING_TYPE ≠ FLOAT32_TYPE ∧ STRING_TYPE ≠ FLOAT64_TYPE := by decide
  obtain ⟨u, nonzeroU, text⟩ := wellFormed.text string
  obtain ⟨v, nonzeroV, text'⟩ := wellFormed'.text string'
  have lengths : a.val.length = u.length + 1 ∧ b.val.length = v.length + 1 := by
    rw [text, text', List.length_append, List.length_append]
    exact ⟨rfl, rfl⟩
  have eq : a.isEQ host b = some (decide (strcmp a.val b.val = .eq)) := by
    simp only [isEQ, same, string, apart, Bool.not_true, Bool.false_eq_true, if_false, if_true]
    split_ifs with differ
    · have unequal : u ≠ v := fun equal => (len_ne_iff wellFormed wellFormed').mp differ (by rw [lengths.1, lengths.2, equal])
      rw [text, text', decide_eq_false fun equal => unequal ((strcmp_eq nonzeroU nonzeroV).mp equal)]
    · have reaches : min u.length v.length < a.len.toInt.toNat := by
        rw [wellFormed.len, Int.toNat_natCast]
        omega
      rw [text, text', strncmp_eq_strcmp nonzeroU nonzeroV reaches]
  have gt : a.isGT host b = some (decide (strcmp a.val b.val ≠ .eq)) := by
    have reaches : min u.length v.length < a.minLen b := by
      rw [minLen_eq wellFormed wellFormed']
      omega
    simp only [isGT, same, string, apart, Bool.not_true, Bool.false_eq_true, if_false, if_true]
    rw [text, text', strncmp_eq_strcmp nonzeroU nonzeroV reaches]
  have ge : a.isGE host b = some (decide (strcmp a.val b.val ≠ .lt)) := by
    simp only [isGE, same, string, apart, Bool.not_true, Bool.false_eq_true, if_false, if_true]
  have ge' : b.isGE host a = some (decide ((strcmp a.val b.val).swap ≠ .lt)) := by
    simp only [isGE, other, string', apart, Bool.not_true, Bool.false_eq_true, if_false, if_true]
    rw [text, text', strcmp_swap nonzeroU nonzeroV]
  rw [consistent_iff_coherent eq gt ge ge', coherent_string, text, text', ne_eq, strcmp_lt nonzeroU nonzeroV]

theorem consistent_blob (blob : a.type = BLOB_TYPE) :
    Consistent host a b ↔ (a.val <+: b.val ∨ b.val <+: a.val → a.val = b.val) := by
  have blob' : b.type = BLOB_TYPE := (isSameKey_iff.mp same).1.symm.trans blob
  have other := isSameKey_symm same
  have apart : BLOB_TYPE ≠ INT32_TYPE ∧ BLOB_TYPE ≠ FLOAT32_TYPE ∧ BLOB_TYPE ≠ FLOAT64_TYPE ∧ BLOB_TYPE ≠ STRING_TYPE := by decide
  let o := memcmp (a.minLen b) a.val b.val
  have commutes : b.minLen a = a.minLen b := by rw [minLen, minLen, min_comm]
  have eq : a.isEQ host b = some (decide (a.len.toInt = b.len.toInt ∧ o = .eq)) := by
    simp only [isEQ, same, blob, apart, Bool.not_true, Bool.false_eq_true, if_false, if_true]
    split_ifs with differ
    · rw [decide_eq_false fun both => differ (BitVec.eq_of_toInt_eq both.1)]
    · have equal : a.len = b.len := not_not.mp differ
      have reach : a.len.toInt.toNat = a.minLen b := by rw [minLen, equal, min_self]
      rw [reach, equal]
      simp only [true_and, o]
  have gt : a.isGT host b = some (decide (o = .gt ∨ (o = .eq ∧ a.len.toInt > b.len.toInt))) := by
    simp only [isGT, same, blob, apart, Bool.not_true, Bool.false_eq_true, if_false, if_true]
    split_ifs with more longer
    · rw [decide_eq_true (Or.inl more)]
    · rw [decide_eq_true (Or.inr longer)]
    · rw [decide_eq_false fun either => either.elim more longer]
  have ge : a.isGE host b = some (decide (o ≠ .lt)) := by
    simp only [isGE, same, blob, apart, Bool.not_true, Bool.false_eq_true, if_false, if_true]
    split_ifs with less
    · rw [decide_eq_true less]
    · rw [decide_eq_false less]
  have ge' : b.isGE host a = some (decide (o.swap ≠ .lt)) := by
    simp only [isGE, other, blob', apart, Bool.not_true, Bool.false_eq_true, if_false, if_true, commutes, ← memcmp_swap _ a.val b.val]
    split_ifs with less
    · rw [decide_eq_true less]
    · rw [decide_eq_false less]
  have agree : o = .eq ↔ a.val <+: b.val ∨ b.val <+: a.val := by
    simp only [o, minLen_eq wellFormed wellFormed']
    exact memcmp_min_eq
  rw [consistent_iff_coherent eq gt ge ge', coherent_blob, agree, wellFormed.len, wellFormed'.len, Nat.cast_inj]
  refine forall_congr' fun either => ⟨fun length => ?_, fun equal => congrArg List.length equal⟩
  rcases either with left | right
  · exact left.eq_of_length length
  · exact (right.eq_of_length length.symm).symm

/-- No two numbers fail; a string less than the other and a blob that the other one goes on from do. -/
theorem comparisons_consistent_iff : Consistent host a b ↔ (a.type = STRING_TYPE → ¬a.val < b.val) ∧
    (a.type = BLOB_TYPE → a.val <+: b.val ∨ b.val <+: a.val → a.val = b.val) := by
  have notString {type : BitVec 8} (is : a.type = type) (apart : type ≠ STRING_TYPE) : a.type = STRING_TYPE → ¬a.val < b.val :=
    fun string => absurd (is.symm.trans string) apart
  have notBlob {type : BitVec 8} (is : a.type = type) (apart : type ≠ BLOB_TYPE) :
      a.type = BLOB_TYPE → a.val <+: b.val ∨ b.val <+: a.val → a.val = b.val := fun blob => absurd (is.symm.trans blob) apart
  cases wellFormed.typed with
  | int32 int _ => exact iff_of_true (consistent_int same int) ⟨notString int (by decide), notBlob int (by decide)⟩
  | float32 float _ => exact iff_of_true (consistent_float same float) ⟨notString float (by decide), notBlob float (by decide)⟩
  | float64 double _ => exact iff_of_true (consistent_double same double) ⟨notString double (by decide), notBlob double (by decide)⟩
  | string string _ _ _ =>
    rw [consistent_string wellFormed wellFormed' same string]
    exact ⟨fun greater => ⟨fun _ => greater, notBlob string (by decide)⟩, fun both => both.1 string⟩
  | blob blob =>
    rw [consistent_blob wellFormed wellFormed' same blob]
    exact ⟨fun equal => ⟨notString blob (by decide), fun _ => equal⟩, fun both => both.2 blob⟩

end Pairs

/-- A host on which floats are whole numbers. -/
def sampleHost : Host := ⟨.little, fun bytes => ByteOrder.little.value bytes, fun bytes => ByteOrder.little.value bytes⟩

def sampleString (c : BitVec 8) : NRAttribute := ⟨7, STRING_TYPE, 0, 2, [c, 0]⟩

theorem sampleString_wellFormed (c : BitVec 8) (nonzero : c ≠ 0) : (sampleString c).WellFormed :=
  ⟨rfl, .string rfl [c] (fun inside => nonzero (List.mem_singleton.mp inside).symm) rfl⟩

theorem comparisons_consistent_iff_sample : Consistent sampleHost (sampleString 98) (sampleString 97) ↔
    (STRING_TYPE = STRING_TYPE → ¬([98, 0] : List (BitVec 8)) < [97, 0]) ∧
    (STRING_TYPE = BLOB_TYPE → ([98, 0] : List (BitVec 8)) <+: [97, 0] ∨ ([97, 0] : List (BitVec 8)) <+: [98, 0] →
      ([98, 0] : List (BitVec 8)) = [97, 0]) :=
  comparisons_consistent_iff (sampleString_wellFormed 98 (by decide)) (sampleString_wellFormed 97 (by decide)) (by decide)

/-- The strings a and b: the first is both less and greater. -/
theorem less_and_greater : (sampleString 97).WellFormed ∧ (sampleString 98).WellFormed ∧
    (sampleString 97).isLT sampleHost (sampleString 98) = some true ∧ (sampleString 97).isGT sampleHost (sampleString 98) = some true ∧
    ¬Consistent sampleHost (sampleString 97) (sampleString 98) := by
  have less : (sampleString 97).isLT sampleHost (sampleString 98) = some true := by decide
  have greater : (sampleString 97).isGT sampleHost (sampleString 98) = some true := by decide
  refine ⟨sampleString_wellFormed 97 (by decide), sampleString_wellFormed 98 (by decide), less, greater, fun consistent => ?_⟩
  rcases consistent.exactlyOne with ⟨_, _, notGreater⟩ | ⟨_, _, notGreater⟩ | ⟨notLess, _, _⟩
  · exact notGreater greater
  · exact notGreater greater
  · exact notLess less

end NRAttribute

end Ns2
