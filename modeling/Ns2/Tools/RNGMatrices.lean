import Mathlib.Data.ZMod.Basic
import Mathlib.LinearAlgebra.Matrix.Notation
import Ns2.Library.Tally
import Mathlib.LinearAlgebra.Matrix.NonsingularInverse

namespace Ns2

namespace RNG

def m1 : ℕ := 4294967087
def m2 : ℕ := 4294944443
def a12 : ℤ := 1403580
def a13n : ℤ := 810728
def a21 : ℤ := 527612
def a23n : ℤ := 1370589
def two17 : ℤ := 131072
def two53 : ℤ := 9007199254740992

abbrev Vec := Fin 3 → ℤ
abbrev Mat := Matrix (Fin 3) (Fin 3) ℤ

scoped instance three_ne_zero : NeZero 3 := ⟨by decide⟩

def InvA1 : Mat := !![184888585, 0, 1945170933; 1, 0, 0; 0, 1, 0]
def InvA2 : Mat := !![0, 360363334, 4225571728; 1, 0, 0; 0, 1, 0]
def A1p0 : Mat := !![0, 1, 0; 0, 0, 1; -810728, 1403580, 0]
def A2p0 : Mat := !![0, 1, 0; 0, 0, 1; -1370589, 0, 527612]
def A1p76 : Mat := !![82758667, 1871391091, 4127413238; 3672831523, 69195019, 1871391091; 3672091415, 3528743235, 69195019]
def A2p76 : Mat := !![1511326704, 3759209742, 1610795712; 4292754251, 1511326704, 3889917532; 3859662829, 4292754251, 3708466080]
def A1p127 : Mat := !![2427906178, 3580155704, 949770784; 226153695, 1230515664, 3580155704; 1988835001, 986791581, 1230515664]
def A2p127 : Mat := !![1464411153, 277697599, 1610723613; 32183930, 1464411153, 1022607788; 2824425944, 32183930, 2093834863]

/-- The part of `v` beyond the multiples of `m`. -/
def reduce (v : ℤ) (m : ℕ) : Tally ℤ := do
  let a1 := v.tdiv m
  let t ← Tally.use (a1 * m)
  let v ← Tally.use (v - t)
  if v < 0 then Tally.use (v + m) else return v

/-- The first value is thrown away where it is too large to be exact. -/
def MultModM (a s c : ℤ) (m : ℕ) : Tally ℤ :=
  let p := a * s
  let v := p + c
  if two53 ≤ v ∨ v ≤ -two53 then do
    Tally.discard p
    Tally.discard v
    let a1 := a.tdiv two17
    let t ← Tally.use (a1 * two17)
    let a ← Tally.use (a - t)
    let v ← Tally.use (a1 * s)
    let a1 := v.tdiv m
    let t ← Tally.use (a1 * m)
    let v ← Tally.use (v - t)
    let w ← Tally.use (v * two17)
    let p ← Tally.use (a * s)
    let v ← Tally.use (w + p)
    let v ← Tally.use (v + c)
    reduce v m
  else do
    let p ← Tally.use p
    let v ← Tally.use (p + c)
    reduce v m

def rowModM (A : Mat) (s : Vec) (m : ℕ) (i : Fin 3) : Tally ℤ := do
  let x ← MultModM (A i 0) (s 0) 0 m
  let x ← MultModM (A i 1) (s 1) x m
  MultModM (A i 2) (s 2) x m

def MatVecModM (A : Mat) (s : Vec) (m : ℕ) : Tally Vec := do
  let x0 ← rowModM A s m 0
  let x1 ← rowModM A s m 1
  let x2 ← rowModM A s m 2
  return ![x0, x1, x2]

def MatMatModM (A B : Mat) (m : ℕ) : Tally Mat := do
  let v0 ← MatVecModM A (fun j => B j 0) m
  let v1 ← MatVecModM A (fun j => B j 1) m
  let v2 ← MatVecModM A (fun j => B j 2) m
  return !![v0 0, v1 0, v2 0; v0 1, v1 1, v2 1; v0 2, v1 2, v2 2]

def MatTwoPowModM (A : Mat) (m : ℕ) : ℕ → Tally Mat
  | 0 => return A
  | e + 1 => do
    let B ← MatTwoPowModM A m e
    MatMatModM B B m

def matPowLoop (m : ℕ) (W B : Mat) (n : ℕ) : Tally Mat :=
  if n = 0 then return B
  else do
    let B ← (if n % 2 = 1 then MatMatModM W B m else pure B)
    let W ← MatMatModM W W m
    matPowLoop m W B (n / 2)
termination_by n
decreasing_by omega

def MatPowModM (A : Mat) (m n : ℕ) : Tally Mat := matPowLoop m A 1 n

variable {m n : ℕ} {a s c v : ℤ} {A B : Mat} {x : Vec}

theorem reduce_tmod (v : ℤ) (m : ℕ) : (reduce v m).value = if v.tmod m < 0 then v.tmod m + m else v.tmod m := by
  have rest : v - v.tdiv m * m = v.tmod m := by
    rw [Int.tmod_def, mul_comm]
  change (if v - v.tdiv m * m < 0 then Tally.use (v - v.tdiv m * m + m) else return v - v.tdiv m * m).value = _
  rw [rest]
  split_ifs <;> rfl

/-- What a reduction leaves: it differs from `v` by a multiple of `m`. -/
theorem reduce_value (positive : 0 < m) (v : ℤ) : 0 ≤ (reduce v m).value ∧ (reduce v m).value < m ∧ (reduce v m).value ≡ v [ZMOD m] := by
  have lower := Int.lt_tmod_of_pos v (by omega : (0 : ℤ) < m)
  have upper := Int.tmod_lt_of_pos v (by omega : (0 : ℤ) < m)
  have rest : v - v.tdiv m * m = v.tmod m := by
    rw [Int.tmod_def, mul_comm]
  have same : v.tmod m ≡ v [ZMOD m] := by
    rw [← rest]
    exact (Int.ModEq.refl v).sub (Int.modEq_zero_iff_dvd.mpr (Dvd.intro_left _ rfl)) |>.trans (by rw [sub_zero])
  rw [reduce_tmod]
  split_ifs with negative
  · exact ⟨by omega, by omega, (Int.add_modEq_right ..).trans same⟩
  · exact ⟨not_lt.mp negative, upper, same⟩

/-- `MultModM` is `(a * s + c) MOD m`. -/
theorem MultModM_value (positive : 0 < m) (a s c : ℤ) :
    0 ≤ (MultModM a s c m).value ∧ (MultModM a s c m).value < m ∧ (MultModM a s c m).value ≡ a * s + c [ZMOD m] := by
  unfold MultModM
  dsimp only
  split_ifs
  · simp only [Tally.value_bind, Tally.value_use]
    obtain ⟨low, high, same⟩ := reduce_value positive
      (((a.tdiv two17) * s - ((a.tdiv two17) * s).tdiv m * m) * two17 + (a - a.tdiv two17 * two17) * s + c)
    refine ⟨low, high, same.trans ?_⟩
    have whole : ((a.tdiv two17) * s - ((a.tdiv two17) * s).tdiv m * m) * two17 + (a - a.tdiv two17 * two17) * s + c =
        a * s + c - ((a.tdiv two17) * s).tdiv m * two17 * m := by ring
    rw [whole]
    exact (Int.ModEq.refl _).sub (Int.modEq_zero_iff_dvd.mpr (Dvd.intro_left _ rfl)) |>.trans (by rw [sub_zero])
  · simp only [Tally.value_bind, Tally.value_use]
    exact reduce_value positive _

/-- The numbers that the matrices and the states are made of. -/
def Operand (m : ℕ) (a : ℤ) : Prop := -2 ^ 21 < a ∧ a < m

theorem reduce_lt (positive : 0 < m) (small : m ≤ 2 ^ 32) (low : -2 ^ 53 < v) (high : v < 2 ^ 53) : (reduce v m).peak < 2 ^ 53 := by
  have lower := Int.lt_tmod_of_pos v (by omega : (0 : ℤ) < m)
  have upper := Int.tmod_lt_of_pos v (by omega : (0 : ℤ) < m)
  have rest : v - v.tdiv m * m = v.tmod m := by
    rw [Int.tmod_def, mul_comm]
  have part : (v.tdiv m * m).natAbs ≤ v.natAbs := by
    rw [Int.natAbs_mul, Int.natAbs_tdiv, Int.natAbs_natCast]
    exact Nat.div_mul_le_self _ _
  unfold reduce
  refine Tally.bind_lt ?_ (Tally.bind_lt ?_ ?_)
  · rw [Tally.peak_use]
    omega
  · simp only [Tally.value_use]
    rw [rest, Tally.peak_use]
    omega
  · change (if v - v.tdiv m * m < 0 then Tally.use (v - v.tdiv m * m + m) else return v - v.tdiv m * m).peak < 2 ^ 53
    rw [rest]
    split_ifs
    · rw [Tally.peak_use]
      omega
    · exact Tally.pure_lt (by decide) _

theorem tdiv_mul_le (v k : ℤ) : |v.tdiv k * k| ≤ |v| := by
  have part : (v.tdiv k * k).natAbs ≤ v.natAbs := by
    rw [Int.natAbs_mul, Int.natAbs_tdiv]
    exact Nat.div_mul_le_self _ _
  rw [Int.abs_eq_natAbs, Int.abs_eq_natAbs]
  exact_mod_cast part

theorem sub_tdiv_lt {k : ℤ} (positive : 0 < k) (v : ℤ) : |v - v.tdiv k * k| < k := by
  have rest : v - v.tdiv k * k = v.tmod k := by
    rw [Int.tmod_def, mul_comm]
  rw [rest]
  exact abs_lt.mpr ⟨Int.lt_tmod_of_pos v positive, Int.tmod_lt_of_pos v positive⟩

theorem mul_lt_pow {i j : ℕ} (left : |a| < 2 ^ i) (right : |s| < 2 ^ j) : |a * s| < 2 ^ (i + j) := by
  rw [abs_mul, pow_add]
  exact mul_lt_mul'' left right (abs_nonneg a) (abs_nonneg s)

theorem use_lt_two53 {v : ℤ} {i : ℕ} (small : |v| < 2 ^ i) (few : i ≤ 53) : (Tally.use v).peak < 2 ^ 53 := by
  obtain ⟨low, high⟩ := abs_lt.mp (small.trans_le (pow_le_pow_right₀ (by decide) few))
  rw [Tally.peak_use]
  omega

/-- Only a small number is negative, so that no product is far below zero. -/
theorem Operand.mul_low (small : m ≤ 2 ^ 32) (left : Operand m a) (right : Operand m s) : -2 ^ 53 < a * s := by
  obtain ⟨lowA, highA⟩ := left
  obtain ⟨lowS, highS⟩ := right
  rcases le_total 0 a with posA | negA <;> rcases le_total 0 s with posS | negS
  · have product := mul_nonneg posA posS
    omega
  · have bound : a * (-s) ≤ 2 ^ 32 * (2 ^ 21 - 1) := mul_le_mul (by omega) (by omega) (by omega) (by decide)
    rw [mul_neg] at bound
    omega
  · have bound : (-a) * s ≤ (2 ^ 21 - 1) * 2 ^ 32 := mul_le_mul (by omega) (by omega) posS (by decide)
    rw [neg_mul] at bound
    omega
  · have product := mul_nonneg_of_nonpos_of_nonpos negA negS
    omega

/-- Everything that the result of `MultModM` depends on is below 2^53. -/
theorem MultModM_lt (positive : 0 < m) (small : m ≤ 2 ^ 32) (left : Operand m a) (right : Operand m s) (low : 0 ≤ c) (high : c < m) :
    (MultModM a s c m).peak < 2 ^ 53 := by
  have lowProduct := left.mul_low small right
  obtain ⟨lowA, highA⟩ := left
  obtain ⟨lowS, highS⟩ := right
  have boundA : |a| < 2 ^ 32 := abs_lt.mpr ⟨by omega, by omega⟩
  have boundS : |s| < 2 ^ 32 := abs_lt.mpr ⟨by omega, by omega⟩
  have modulus : (0 : ℤ) < m := by omega
  unfold MultModM
  dsimp only
  split_ifs with large
  · let q := a.tdiv two17
    let r := a - q * two17
    let v := q * s
    let u := v - v.tdiv m * m
    have whole : |q * two17| < 2 ^ 32 := (tdiv_mul_le a two17).trans_lt boundA
    have boundQ : |q| < 2 ^ 15 := by
      unfold two17 at whole
      rw [abs_mul] at whole
      norm_num at whole ⊢
      omega
    have boundR : |r| < 2 ^ 17 := sub_tdiv_lt (by decide) a
    have boundV : |v| < 2 ^ 47 := mul_lt_pow boundQ boundS
    have boundT : |v.tdiv m * m| < 2 ^ 47 := (tdiv_mul_le v m).trans_lt boundV
    have boundU : |u| < 2 ^ 32 := (sub_tdiv_lt modulus v).trans_le (by omega)
    have boundW : |u * two17| < 2 ^ 50 := mul_lt_pow (j := 18) boundU (by decide)
    have boundP : |r * s| < 2 ^ 49 := mul_lt_pow boundR boundS
    obtain ⟨lowW, highW⟩ := abs_lt.mp boundW
    obtain ⟨lowP, highP⟩ := abs_lt.mp boundP
    have boundSum : |u * two17 + r * s| < 2 ^ 53 := abs_lt.mpr ⟨by omega, by omega⟩
    have boundAll : |u * two17 + r * s + c| < 2 ^ 53 := abs_lt.mpr ⟨by omega, by omega⟩
    refine Tally.bind_lt (Nat.two_pow_pos 53) (Tally.bind_lt (Nat.two_pow_pos 53) ?_)
    refine Tally.bind_lt (use_lt_two53 whole (by decide)) ?_
    refine Tally.bind_lt (use_lt_two53 boundR (by decide)) ?_
    refine Tally.bind_lt (use_lt_two53 boundV (by decide)) ?_
    refine Tally.bind_lt (use_lt_two53 boundT (by decide)) ?_
    refine Tally.bind_lt (use_lt_two53 boundU (by decide)) ?_
    refine Tally.bind_lt (use_lt_two53 boundW (by decide)) ?_
    refine Tally.bind_lt (use_lt_two53 boundP (by decide)) ?_
    refine Tally.bind_lt (use_lt_two53 boundSum le_rfl) (Tally.bind_lt (use_lt_two53 boundAll le_rfl) ?_)
    exact reduce_lt positive small (abs_lt.mp boundAll).1 (abs_lt.mp boundAll).2
  · obtain ⟨below, above⟩ := not_or.mp large
    unfold two53 at below above
    have boundSum : |a * s + c| < 2 ^ 53 := abs_lt.mpr ⟨by omega, by omega⟩
    refine Tally.bind_lt (use_lt_two53 (abs_lt.mpr ⟨lowProduct, by omega⟩) le_rfl) (Tally.bind_lt (use_lt_two53 boundSum le_rfl) ?_)
    exact reduce_lt positive small (abs_lt.mp boundSum).1 (abs_lt.mp boundSum).2

end RNG

namespace RNG

variable {m n e : ℕ} {A B W : Mat} {s t : Vec}

def InRange (m : ℕ) (v : Vec) : Prop := ∀ i, 0 ≤ v i ∧ v i < m

/-- The entries that a matrix has before and after reductions. -/
def Entries (m : ℕ) (A : Mat) : Prop := ∀ i j, Operand m (A i j)

instance (m : ℕ) (v : Vec) : Decidable (InRange m v) := inferInstanceAs (Decidable (∀ i, 0 ≤ v i ∧ v i < m))

instance (m : ℕ) (a : ℤ) : Decidable (Operand m a) := inferInstanceAs (Decidable (-2 ^ 21 < a ∧ a < m))

instance rowsDecidable (m : ℕ) (A : Fin 3 → Fin 3 → ℤ) : Decidable (∀ i j, Operand m (A i j)) := inferInstance

instance (m : ℕ) (A : Mat) : Decidable (Entries m A) := rowsDecidable m A

def vecMod (m : ℕ) (v : Vec) : Fin 3 → ZMod m := fun i => v i

def matMod (m : ℕ) (A : Mat) : Matrix (Fin 3) (Fin 3) (ZMod m) := A.map fun a => (a : ZMod m)

theorem operand_of_range {a : ℤ} (range : 0 ≤ a ∧ a < m) : Operand m a := ⟨by omega, range.2⟩

theorem vecMod_injective (inS : InRange m s) (inT : InRange m t) (same : vecMod m s = vecMod m t) : s = t := by
  funext i
  have congruent := (ZMod.intCast_eq_intCast_iff _ _ m).mp (congrFun same i)
  rwa [Int.ModEq, Int.emod_eq_of_lt (inS i).1 (inS i).2, Int.emod_eq_of_lt (inT i).1 (inT i).2] at congruent

theorem MultModM_mod (positive : 0 < m) (a s c : ℤ) : ((MultModM a s c m).value : ZMod m) = a * s + c := by
  have congruent := (ZMod.intCast_eq_intCast_iff _ _ m).mpr (MultModM_value positive a s c).2.2
  rw [congruent]
  push_cast
  rfl

theorem MultModM_range (positive : 0 < m) (a s c : ℤ) : 0 ≤ (MultModM a s c m).value ∧ (MultModM a s c m).value < m :=
  ⟨(MultModM_value positive a s c).1, (MultModM_value positive a s c).2.1⟩

theorem rowModM_range (positive : 0 < m) (A : Mat) (s : Vec) (i : Fin 3) :
    0 ≤ (rowModM A s m i).value ∧ (rowModM A s m i).value < m := MultModM_range positive _ _ _

theorem rowModM_mod (positive : 0 < m) (A : Mat) (s : Vec) (i : Fin 3) :
    ((rowModM A s m i).value : ZMod m) = (matMod m A).mulVec (vecMod m s) i := by
  unfold rowModM
  simp only [Tally.value_bind]
  rw [MultModM_mod positive, MultModM_mod positive, MultModM_mod positive, Int.cast_zero, add_zero]
  simp only [Matrix.mulVec, dotProduct, Fin.sum_univ_three, matMod, Matrix.map_apply, vecMod]
  ring

theorem rowModM_lt (positive : 0 < m) (small : m ≤ 2 ^ 32) (entries : Entries m A) (operands : ∀ j, Operand m (s j)) (i : Fin 3) :
    (rowModM A s m i).peak < 2 ^ 53 := by
  have first := MultModM_range positive (A i 0) (s 0) 0
  have second := MultModM_range positive (A i 1) (s 1) (MultModM (A i 0) (s 0) 0 m).value
  refine Tally.bind_lt ?_ (Tally.bind_lt ?_ ?_)
  · exact MultModM_lt positive small (entries i 0) (operands 0) le_rfl (by omega)
  · exact MultModM_lt positive small (entries i 1) (operands 1) first.1 first.2
  · exact MultModM_lt positive small (entries i 2) (operands 2) second.1 second.2

theorem MatVecModM_apply (A : Mat) (s : Vec) (m : ℕ) (i : Fin 3) : (MatVecModM A s m).value i = (rowModM A s m i).value := by
  match i with
  | 0 => rfl
  | 1 => rfl
  | 2 => rfl

theorem MatVecModM_range (positive : 0 < m) (A : Mat) (s : Vec) : InRange m (MatVecModM A s m).value := by
  intro i
  rw [MatVecModM_apply]
  exact rowModM_range positive A s i

theorem MatVecModM_mod (positive : 0 < m) (A : Mat) (s : Vec) :
    vecMod m (MatVecModM A s m).value = (matMod m A).mulVec (vecMod m s) := by
  funext i
  rw [vecMod, MatVecModM_apply]
  exact rowModM_mod positive A s i

theorem MatVecModM_lt (positive : 0 < m) (small : m ≤ 2 ^ 32) (entries : Entries m A) (operands : ∀ j, Operand m (s j)) :
    (MatVecModM A s m).peak < 2 ^ 53 := by
  refine Tally.bind_lt (rowModM_lt positive small entries operands 0) ?_
  refine Tally.bind_lt (rowModM_lt positive small entries operands 1) ?_
  exact Tally.bind_lt (rowModM_lt positive small entries operands 2) (Tally.pure_lt (Nat.two_pow_pos 53) _)

theorem MatMatModM_apply (A B : Mat) (m : ℕ) (i j : Fin 3) :
    (MatMatModM A B m).value i j = (rowModM A (fun k => B k j) m i).value := by
  match i, j with
  | 0, 0 => rfl
  | 0, 1 => rfl
  | 0, 2 => rfl
  | 1, 0 => rfl
  | 1, 1 => rfl
  | 1, 2 => rfl
  | 2, 0 => rfl
  | 2, 1 => rfl
  | 2, 2 => rfl

theorem MatMatModM_entries (positive : 0 < m) (A B : Mat) : Entries m (MatMatModM A B m).value := by
  intro i j
  rw [MatMatModM_apply]
  exact operand_of_range (rowModM_range positive A _ i)

theorem MatMatModM_mod (positive : 0 < m) (A B : Mat) : matMod m (MatMatModM A B m).value = matMod m A * matMod m B := by
  ext i j
  rw [matMod, Matrix.map_apply, MatMatModM_apply, rowModM_mod positive]
  rfl

theorem MatMatModM_lt (positive : 0 < m) (small : m ≤ 2 ^ 32) (left : Entries m A) (right : Entries m B) :
    (MatMatModM A B m).peak < 2 ^ 53 := by
  refine Tally.bind_lt (MatVecModM_lt positive small left fun j => right j 0) ?_
  refine Tally.bind_lt (MatVecModM_lt positive small left fun j => right j 1) ?_
  exact Tally.bind_lt (MatVecModM_lt positive small left fun j => right j 2) (Tally.pure_lt (Nat.two_pow_pos 53) _)

theorem MatTwoPowModM_mod (positive : 0 < m) (A : Mat) (e : ℕ) :
    matMod m (MatTwoPowModM A m e).value = matMod m A ^ 2 ^ e := by
  induction e with
  | zero => exact (pow_one _).symm
  | succ e ih =>
    rw [MatTwoPowModM, Tally.value_bind, MatMatModM_mod positive, ih, ← pow_add, pow_succ, mul_two]

theorem MatTwoPowModM_entries (positive : 0 < m) (entries : Entries m A) (e : ℕ) : Entries m (MatTwoPowModM A m e).value := by
  cases e with
  | zero => exact entries
  | succ e =>
    rw [MatTwoPowModM, Tally.value_bind]
    exact MatMatModM_entries positive _ _

theorem MatTwoPowModM_lt (positive : 0 < m) (small : m ≤ 2 ^ 32) (entries : Entries m A) (e : ℕ) :
    (MatTwoPowModM A m e).peak < 2 ^ 53 := by
  induction e with
  | zero => exact Tally.pure_lt (Nat.two_pow_pos 53) A
  | succ e ih =>
    have power := MatTwoPowModM_entries positive entries e
    exact Tally.bind_lt ih (MatMatModM_lt positive small power power)

/-- The product so far, with the power that is still to come. -/
theorem matPowLoop_mod (positive : 0 < m) (W B : Mat) (n : ℕ) :
    matMod m (matPowLoop m W B n).value = matMod m W ^ n * matMod m B := by
  induction n using Nat.strong_induction_on generalizing W B with
  | h n ih =>
    rw [matPowLoop]
    by_cases zero : n = 0
    · rw [if_pos zero, zero, pow_zero, one_mul]
      rfl
    · rw [if_neg zero, Tally.value_bind, Tally.value_bind, ih (n / 2) (by omega), MatMatModM_mod positive, ← pow_two, ← pow_mul]
      by_cases odd : n % 2 = 1
      · have whole : 2 * (n / 2) + 1 = n := by omega
        rw [if_pos odd, MatMatModM_mod positive, ← mul_assoc, ← pow_succ, whole]
      · have whole : 2 * (n / 2) = n := by omega
        rw [if_neg odd, whole]
        rfl

theorem matPowLoop_lt (positive : 0 < m) (small : m ≤ 2 ^ 32) (left : Entries m W) (right : Entries m B) (n : ℕ) :
    Entries m (matPowLoop m W B n).value ∧ (matPowLoop m W B n).peak < 2 ^ 53 := by
  induction n using Nat.strong_induction_on generalizing W B with
  | h n ih =>
    rw [matPowLoop]
    by_cases zero : n = 0
    · rw [if_pos zero]
      exact ⟨right, Tally.pure_lt (Nat.two_pow_pos 53) B⟩
    · rw [if_neg zero]
      have square := MatMatModM_entries positive W W
      have bound := MatMatModM_lt positive small left left
      by_cases odd : n % 2 = 1
      · rw [if_pos odd]
        obtain ⟨entries, peak⟩ := ih (n / 2) (by omega) square (MatMatModM_entries positive W B)
        exact ⟨entries, Tally.bind_lt (MatMatModM_lt positive small left right) (Tally.bind_lt bound peak)⟩
      · rw [if_neg odd]
        obtain ⟨entries, peak⟩ := ih (n / 2) (by omega) square right
        exact ⟨entries, Tally.bind_lt (Tally.pure_lt (Nat.two_pow_pos 53) B) (Tally.bind_lt bound peak)⟩

theorem MatPowModM_mod (positive : 0 < m) (A : Mat) (n : ℕ) : matMod m (MatPowModM A m n).value = matMod m A ^ n := by
  have one : matMod m 1 = 1 := Matrix.map_one _ Int.cast_zero Int.cast_one
  rw [MatPowModM, matPowLoop_mod positive, one, mul_one]

theorem MatPowModM_lt (large : 1 < m) (small : m ≤ 2 ^ 32) (entries : Entries m A) (n : ℕ) :
    Entries m (MatPowModM A m n).value ∧ (MatPowModM A m n).peak < 2 ^ 53 := by
  refine matPowLoop_lt (by omega) small entries (fun i j => ?_) n
  rw [Matrix.one_apply]
  split_ifs
  · exact ⟨by decide, by omega⟩
  · exact ⟨by decide, by omega⟩

end RNG

end Ns2
