import Ns2.Tools.RNG

namespace Ns2

namespace RNG

variable {s t : Seed} {n : ℤ} {e c : ℤ} {m : ℕ}

/-- A square of residues. Unlike `MatMatModM` it keeps no account of the products. -/
def square (m : ℕ) (A : Mat) : Mat :=
  let entry (i j : Fin 3) : ℤ := (A i 0 * A 0 j + A i 1 * A 1 j + A i 2 * A 2 j) % m
  !![entry 0 0, entry 0 1, entry 0 2; entry 1 0, entry 1 1, entry 1 2; entry 2 0, entry 2 1, entry 2 2]

theorem square_mod (m : ℕ) (A : Mat) : matMod m (square m A) = matMod m A ^ 2 := by
  ext i j
  rw [pow_two, Matrix.mul_apply, Fin.sum_univ_three]
  fin_cases i <;> fin_cases j <;> simp [matMod, square]

theorem iterate_square_mod (m : ℕ) (A : Mat) (k : ℕ) : matMod m ((square m)^[k] A) = matMod m A ^ 2 ^ k := by
  induction k with
  | zero => rw [Function.iterate_zero_apply, pow_zero, pow_one]
  | succ k ih => rw [Function.iterate_succ_apply', square_mod, ih, ← pow_mul, ← pow_succ]

/-- What is checked of the matrices of a component: the inverse, and the two powers, each by squaring the one before. -/
structure Component (m : ℕ) (A InvA J76 J127 : Mat) : Prop where
  large : 1 < m
  small : m ≤ 2 ^ 32
  entries : Entries m A
  invEntries : Entries m InvA
  entries76 : Entries m J76
  entries127 : Entries m J127
  right : (MatMatModM A InvA m).value = 1
  left : (MatMatModM InvA A m).value = 1
  substream : (square m)^[76] A = J76
  stream : (square m)^[51] J76 = J127

theorem first : Component m1 A1p0 InvA1 A1p76 A1p127 := by
  constructor <;> decide +kernel

theorem second : Component m2 A2p0 InvA2 A2p76 A2p127 := by
  constructor <;> decide +kernel

namespace Component

variable {A InvA J76 J127 : Mat} (C : Component m A InvA J76 J127)

include C

theorem positive : 0 < m := Nat.zero_lt_one.trans C.large

theorem mul_inv : matMod m A * matMod m InvA = 1 := by
  rw [← MatMatModM_mod C.positive, C.right]
  exact Matrix.map_one _ Int.cast_zero Int.cast_one

theorem inv_mul : matMod m InvA * matMod m A = 1 := by
  rw [← MatMatModM_mod C.positive, C.left]
  exact Matrix.map_one _ Int.cast_zero Int.cast_one

/-- The step as an invertible matrix. -/
def unit : (Matrix (Fin 3) (Fin 3) (ZMod m))ˣ := ⟨matMod m A, matMod m InvA, C.mul_inv, C.inv_mul⟩

theorem pow_nat (k : ℕ) : matMod m A ^ k = ((C.unit ^ (k : ℤ) : (Matrix (Fin 3) (Fin 3) (ZMod m))ˣ) : Matrix (Fin 3) (Fin 3) (ZMod m)) := by
  rw [zpow_natCast, Units.val_pow_eq_pow_val]
  rfl

theorem inv_nat (k : ℕ) : matMod m InvA ^ k = ((C.unit ^ (-k : ℤ) : (Matrix (Fin 3) (Fin 3) (ZMod m))ˣ) : Matrix (Fin 3) (Fin 3) (ZMod m)) := by
  rw [zpow_neg, ← inv_zpow, zpow_natCast, Units.val_pow_eq_pow_val]
  rfl

theorem mod_substream : matMod m J76 = ((C.unit ^ (2 ^ 76 : ℤ) : (Matrix (Fin 3) (Fin 3) (ZMod m))ˣ) : Matrix (Fin 3) (Fin 3) (ZMod m)) := by
  have power : matMod m J76 = matMod m A ^ 2 ^ 76 := by rw [← C.substream, iterate_square_mod]
  rw [power, C.pow_nat, Nat.cast_pow, Nat.cast_ofNat]

theorem mod_stream : matMod m J127 = ((C.unit ^ (2 ^ 127 : ℤ) : (Matrix (Fin 3) (Fin 3) (ZMod m))ˣ) : Matrix (Fin 3) (Fin 3) (ZMod m)) := by
  have power : matMod m J127 = matMod m A ^ 2 ^ 127 := by
    rw [← C.stream, iterate_square_mod, ← C.substream, iterate_square_mod, ← pow_mul, ← pow_add]
  rw [power, C.pow_nat, Nat.cast_pow, Nat.cast_ofNat]

/-- The matrix of `advance_state` is the power of the step that its arguments say. -/
theorem mod_advance (e c : ℤ) :
    matMod m (advanceMatrix A InvA m e c).value =
      ((C.unit ^ steps e c : (Matrix (Fin 3) (Fin 3) (ZMod m))ˣ) : Matrix (Fin 3) (Fin 3) (ZMod m)) := by
  have power : matMod m (if 0 ≤ c then MatPowModM A m c.toNat else MatPowModM InvA m (-c).toNat).value =
      ((C.unit ^ c : (Matrix (Fin 3) (Fin 3) (ZMod m))ˣ) : Matrix (Fin 3) (Fin 3) (ZMod m)) := by
    split_ifs with forward
    · rw [MatPowModM_mod C.positive, C.pow_nat, Int.toNat_of_nonneg forward]
    · rw [MatPowModM_mod C.positive, C.inv_nat, Int.toNat_of_nonneg (by omega), neg_neg]
  unfold advanceMatrix steps
  rw [Tally.value_bind, Tally.value_bind]
  rcases lt_trichotomy e 0 with back | rfl | forward
  · have two : (2 : ℤ) ^ (-e).toNat = ((2 ^ (-e).toNat : ℕ) : ℤ) := by push_cast; rfl
    rw [if_pos back.ne, MatMatModM_mod C.positive, power, if_neg back.not_gt, if_pos back, MatTwoPowModM_mod C.positive, C.inv_nat,
      if_neg back.not_gt, if_pos back, two, zpow_add, Units.val_mul]
  · rw [if_neg (not_not.mpr rfl), if_neg (lt_irrefl 0), if_neg (lt_irrefl 0)]
    exact power
  · have two : (2 : ℤ) ^ e.toNat = ((2 ^ e.toNat : ℕ) : ℤ) := by push_cast; rfl
    rw [if_pos forward.ne', MatMatModM_mod C.positive, power, if_pos forward, MatTwoPowModM_mod C.positive, C.pow_nat,
      if_pos forward, two, zpow_add, Units.val_mul]

theorem advance_lt (e c : ℤ) : Entries m (advanceMatrix A InvA m e c).value ∧ (advanceMatrix A InvA m e c).peak < 2 ^ 53 := by
  have none := Nat.two_pow_pos 53
  have zero : Entries m (0 : Mat) := by
    intro i j
    have large := C.large
    rw [Matrix.zero_apply]
    exact ⟨by decide, by omega⟩
  obtain ⟨firstB, peakB⟩ : Entries m (if 0 < e then MatTwoPowModM A m e.toNat else if e < 0 then MatTwoPowModM InvA m (-e).toNat else pure 0).value ∧
      (if 0 < e then MatTwoPowModM A m e.toNat else if e < 0 then MatTwoPowModM InvA m (-e).toNat else pure 0).peak < 2 ^ 53 := by
    split_ifs
    · exact ⟨MatTwoPowModM_entries C.positive C.entries _, MatTwoPowModM_lt C.positive C.small C.entries _⟩
    · exact ⟨MatTwoPowModM_entries C.positive C.invEntries _, MatTwoPowModM_lt C.positive C.small C.invEntries _⟩
    · exact ⟨zero, none⟩
  obtain ⟨firstC, peakC⟩ : Entries m (if 0 ≤ c then MatPowModM A m c.toNat else MatPowModM InvA m (-c).toNat).value ∧
      (if 0 ≤ c then MatPowModM A m c.toNat else MatPowModM InvA m (-c).toNat).peak < 2 ^ 53 := by
    split_ifs
    · exact MatPowModM_lt C.large C.small C.entries _
    · exact MatPowModM_lt C.large C.small C.invEntries _
  unfold advanceMatrix
  generalize (if 0 < e then MatTwoPowModM A m e.toNat else if e < 0 then MatTwoPowModM InvA m (-e).toNat else pure 0) = B at *
  generalize (if 0 ≤ c then MatPowModM A m c.toNat else MatPowModM InvA m (-c).toNat) = D at *
  refine ⟨?_, Tally.bind_lt peakB (Tally.bind_lt peakC ?_)⟩
  · rw [Tally.value_bind, Tally.value_bind]
    split_ifs
    · exact MatMatModM_entries C.positive _ _
    · exact firstC
  · split_ifs
    · exact MatMatModM_lt C.positive C.small firstB firstC
    · exact none

end Component

/-- The state a number of updates on, or back. -/
def Jumps (n : ℤ) (s t : Seed) : Prop :=
  if 0 ≤ n then (fun s => (next s).value)^[n.toNat] s = t else (fun s => (next s).value)^[(-n).toNat] t = s

namespace Seed

def Ranged (s : Seed) : Prop := InRange m1 s.fst ∧ InRange m2 s.snd

/-- What a state may be: in range, and neither component zero. -/
structure Valid (s : Seed) : Prop where
  ranged : s.Ranged
  fst : s.fst ≠ 0
  snd : s.snd ≠ 0

/-- `t` has the residues of `s` after `n` steps. -/
def Steps (n : ℤ) (s t : Seed) : Prop :=
  vecMod m1 t.fst = (first.unit ^ n).val.mulVec (vecMod m1 s.fst) ∧ vecMod m2 t.snd = (second.unit ^ n).val.mulVec (vecMod m2 s.snd)

theorem Steps.trans {k : ℤ} {u : Seed} (before : Steps n s t) (after : Steps k t u) : Steps (k + n) s u := by
  refine ⟨?_, ?_⟩
  · rw [after.1, before.1, Matrix.mulVec_mulVec, ← Units.val_mul, ← zpow_add]
  · rw [after.2, before.2, Matrix.mulVec_mulVec, ← Units.val_mul, ← zpow_add]

theorem steps_zero (s : Seed) : Steps 0 s s := by
  refine ⟨?_, ?_⟩
  · rw [zpow_zero, Units.val_one, Matrix.one_mulVec]
  · rw [zpow_zero, Units.val_one, Matrix.one_mulVec]

/-- A state in range is determined by its residues. -/
theorem Steps.unique {u : Seed} (ranged : t.Ranged) (ranged' : u.Ranged) (one : Steps n s t) (other : Steps n s u) : t = u :=
  Seed.ext (vecMod_injective ranged.1 ranged'.1 (one.1.trans other.1.symm)) (vecMod_injective ranged.2 ranged'.2 (one.2.trans other.2.symm))

end Seed

theorem fin_three_ext {α : Type} {f g : Fin 3 → α} (zero : f 0 = g 0) (one : f 1 = g 1) (two : f 2 = g 2) : f = g := by
  funext i
  match i with
  | 0 => exact zero
  | 1 => exact one
  | 2 => exact two

theorem vec_ext {v : Vec} {f : Fin 3 → ZMod m} (zero : (v 0 : ZMod m) = f 0) (one : (v 1 : ZMod m) = f 1) (two : (v 2 : ZMod m) = f 2) :
    vecMod m v = f := fin_three_ext zero one two

theorem reduce_mod (positive : 0 < m) (v : ℤ) : ((reduce v m).value : ZMod m) = v :=
  (ZMod.intCast_eq_intCast_iff _ _ m).mpr (reduce_value positive v).2.2

/-- The update of `U01` is one step. -/
theorem next_steps (s : Seed) : Seed.Steps 1 s (next s).value := by
  have firstRow : (matMod m1 A1p0).mulVec (vecMod m1 s.fst) = ![(s.fst 1 : ZMod m1), s.fst 2, (a12 * s.fst 1 - a13n * s.fst 0 : ℤ)] := by
    refine fin_three_ext ?_ ?_ ?_ <;>
      simp only [Matrix.mulVec, dotProduct, Fin.sum_univ_three, matMod, Matrix.map_apply, vecMod, A1p0, a12, a13n]
    · simp
    · simp
    · simp
      ring
  have secondRow : (matMod m2 A2p0).mulVec (vecMod m2 s.snd) = ![(s.snd 1 : ZMod m2), s.snd 2, (a21 * s.snd 2 - a23n * s.snd 0 : ℤ)] := by
    refine fin_three_ext ?_ ?_ ?_ <;>
      simp only [Matrix.mulVec, dotProduct, Fin.sum_univ_three, matMod, Matrix.map_apply, vecMod, A2p0, a21, a23n]
    · simp
    · simp
    · simp
      ring
  refine ⟨?_, ?_⟩
  · rw [zpow_one]
    refine Eq.trans (vec_ext ?_ ?_ ?_) firstRow.symm
    · rfl
    · rfl
    · exact reduce_mod first.positive _
  · rw [zpow_one]
    refine Eq.trans (vec_ext ?_ ?_ ?_) secondRow.symm
    · rfl
    · rfl
    · exact reduce_mod second.positive _

theorem next_ranged (ranged : s.Ranged) : (next s).value.Ranged := by
  obtain ⟨first', second'⟩ := ranged
  have new1 := reduce_value first.positive (a12 * s.fst 1 - a13n * s.fst 0)
  have new2 := reduce_value second.positive (a21 * s.snd 2 - a23n * s.snd 0)
  refine ⟨fun i => ?_, fun i => ?_⟩
  · match i with
    | 0 => exact first' 1
    | 1 => exact first' 2
    | 2 => exact ⟨new1.1, new1.2.1⟩
  · match i with
    | 0 => exact second' 1
    | 1 => exact second' 2
    | 2 => exact ⟨new2.1, new2.2.1⟩

theorem iterate_steps (s : Seed) (k : ℕ) : Seed.Steps k s ((fun s => (next s).value)^[k] s) := by
  induction k with
  | zero => exact Seed.steps_zero s
  | succ k ih =>
    rw [Function.iterate_succ_apply', Nat.cast_succ, add_comm]
    exact ih.trans (next_steps _)

theorem iterate_ranged (ranged : s.Ranged) (k : ℕ) : ((fun s => (next s).value)^[k] s).Ranged := by
  induction k with
  | zero => exact ranged
  | succ k ih =>
    rw [Function.iterate_succ_apply']
    exact next_ranged ih

/-- The residues after `n` steps are those of the state `n` updates on. -/
theorem Seed.Steps.jumps (ranged : s.Ranged) (ranged' : t.Ranged) (steps : Seed.Steps n s t) : Jumps n s t := by
  unfold Jumps
  split_ifs with forward
  · have there := iterate_steps s n.toNat
    rw [Int.toNat_of_nonneg forward] at there
    exact Seed.Steps.unique (iterate_ranged ranged _) ranged' there steps
  · have back := steps.trans (iterate_steps t (-n).toNat)
    rw [Int.toNat_of_nonneg (by omega), neg_add_cancel] at back
    exact Seed.Steps.unique (iterate_ranged ranged' _) ranged back (Seed.steps_zero s)

theorem vec_zero {v : Vec} {u : (Matrix (Fin 3) (Fin 3) (ZMod m))ˣ} {w : Vec} (positive : 0 < m) (range : InRange m v)
    (same : vecMod m w = u.val.mulVec (vecMod m v)) (zero : w = 0) : v = 0 := by
  have nothing : vecMod m (0 : Vec) = 0 := by
    funext i
    exact Int.cast_zero
  have back : vecMod m v = u.inv.mulVec (vecMod m w) := by
    rw [same, Matrix.mulVec_mulVec, u.inv_val, Matrix.one_mulVec]
  rw [zero, nothing, Matrix.mulVec_zero, ← nothing] at back
  exact vecMod_injective range (fun _ => ⟨le_rfl, by rw [Pi.zero_apply]; omega⟩) back

/-- Neither component becomes zero. -/
theorem Seed.Valid.steps (valid : s.Valid) (ranged : t.Ranged) (steps : Seed.Steps n s t) : t.Valid :=
  ⟨ranged, fun zero => valid.fst (vec_zero first.positive valid.ranged.1 steps.1 zero),
    fun zero => valid.snd (vec_zero second.positive valid.ranged.2 steps.2 zero)⟩

theorem jump_ranged (A1 A2 : Mat) (s : Seed) : (jump A1 A2 s).value.Ranged :=
  ⟨MatVecModM_range first.positive A1 s.fst, MatVecModM_range second.positive A2 s.snd⟩

theorem jump_steps {A1 A2 : Mat} (one : matMod m1 A1 = (first.unit ^ n).val) (two : matMod m2 A2 = (second.unit ^ n).val) (s : Seed) :
    Seed.Steps n s (jump A1 A2 s).value :=
  ⟨(MatVecModM_mod first.positive A1 s.fst).trans (by rw [one]), (MatVecModM_mod second.positive A2 s.snd).trans (by rw [two])⟩

theorem jump_lt {A1 A2 : Mat} (one : Entries m1 A1) (two : Entries m2 A2) (ranged : s.Ranged) : (jump A1 A2 s).peak < 2 ^ 53 := by
  refine Tally.bind_lt (MatVecModM_lt first.positive first.small one fun j => operand_of_range (ranged.1 j)) ?_
  exact Tally.bind_lt (MatVecModM_lt second.positive second.small two fun j => operand_of_range (ranged.2 j))
    (Tally.pure_lt (Nat.two_pow_pos 53) _)

theorem substream_steps (s : Seed) : Seed.Steps (2 ^ 76) s (jump A1p76 A2p76 s).value :=
  jump_steps first.mod_substream second.mod_substream s

theorem stream_steps (s : Seed) : Seed.Steps (2 ^ 127) s (jump A1p127 A2p127 s).value :=
  jump_steps first.mod_stream second.mod_stream s

theorem advance_value (r : Stream) (e c : ℤ) : (advance_state r e c).value.Cg_ =
    (jump (advanceMatrix A1p0 InvA1 m1 e c).value (advanceMatrix A2p0 InvA2 m2 e c).value r.Cg_).value := by
  unfold advance_state
  simp only [Tally.value_bind, Tally.value_pure]

theorem advance_steps (r : Stream) (e c : ℤ) :
    Seed.Steps (steps e c) r.Cg_ (advance_state r e c).value.Cg_ ∧ (advance_state r e c).value.Cg_.Ranged := by
  rw [advance_value]
  exact ⟨jump_steps (first.mod_advance e c) (second.mod_advance e c) r.Cg_, jump_ranged _ _ _⟩

theorem advance_lt {r : Stream} (ranged : r.Cg_.Ranged) (e c : ℤ) : (advance_state r e c).peak < 2 ^ 53 := by
  obtain ⟨entries1, peak1⟩ := first.advance_lt e c
  obtain ⟨entries2, peak2⟩ := second.advance_lt e c
  refine Tally.bind_lt peak1 (Tally.bind_lt peak2 (Tally.bind_lt (jump_lt entries1 entries2 ranged) ?_))
  exact Tally.pure_lt (Nat.two_pow_pos 53) _

end RNG

end Ns2
