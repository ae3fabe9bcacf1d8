import Mathlib.Data.Rat.Defs
import Ns2.Library.Machine
import Ns2.Tools.RNGMatrices

namespace Ns2

namespace RNG

def fact : ℚ := 1 / 2 ^ 24
def norm : ℚ := 1 / (m1 + 1)

/-- The six numbers of a state, three for each component. -/
@[ext]
structure Seed where
  fst : Vec
  snd : Vec
deriving DecidableEq

structure Stream where
  Cg_ : Seed
  Bg_ : Seed
  Ig_ : Seed
  anti_ : Bool
  inc_prec_ : Bool

def jump (A1 A2 : Mat) (s : Seed) : Tally Seed := do
  let v1 ← MatVecModM A1 s.fst m1
  let v2 ← MatVecModM A2 s.snd m2
  return ⟨v1, v2⟩

/-- The update of the state in `U01`. -/
def next (Cg : Seed) : Tally Seed := do
  let x ← Tally.use (a12 * Cg.fst 1)
  let y ← Tally.use (a13n * Cg.fst 0)
  let p1 ← Tally.use (x - y)
  let p1 ← reduce p1 m1
  let x ← Tally.use (a21 * Cg.snd 2)
  let y ← Tally.use (a23n * Cg.snd 0)
  let p2 ← Tally.use (x - y)
  let p2 ← reduce p2 m2
  return ⟨![Cg.fst 1, Cg.fst 2, p1], ![Cg.snd 1, Cg.snd 2, p2]⟩

def U01 (r : Stream) : Tally (ℚ × Stream) := do
  let Cg ← next r.Cg_
  let p1 := Cg.fst 2
  let p2 := Cg.snd 2
  let u : ℚ := if p2 < p1 then (p1 - p2) * norm else (p1 - p2 + m1) * norm
  return (if r.anti_ then 1 - u else u, { r with Cg_ := Cg })

def U01d (r : Stream) : Tally (ℚ × Stream) := do
  let (u, r) ← U01 r
  let (u', r) ← U01 r
  if r.anti_ then
    let u := u + (u' - 1) * fact
    return (if u < 0 then u + 1 else u, r)
  else
    let u := u + u' * fact
    return (if u < 1 then u else u - 1, r)

def rand_u01 (r : Stream) : Tally (ℚ × Stream) := if r.inc_prec_ then U01d r else U01 r

def reset_start_stream (r : Stream) : Stream := { r with Cg_ := r.Ig_, Bg_ := r.Ig_ }

def reset_start_substream (r : Stream) : Stream := { r with Cg_ := r.Bg_ }

def reset_next_substream (r : Stream) : Tally Stream := do
  let Bg ← jump A1p76 A2p76 r.Bg_
  return { r with Bg_ := Bg, Cg_ := Bg }

/-- The matrix of the jump in one component. -/
def advanceMatrix (A InvA : Mat) (m : ℕ) (e c : ℤ) : Tally Mat := do
  let B ← (if 0 < e then MatTwoPowModM A m e.toNat else if e < 0 then MatTwoPowModM InvA m (-e).toNat else pure 0)
  let C ← (if 0 ≤ c then MatPowModM A m c.toNat else MatPowModM InvA m (-c).toNat)
  if e ≠ 0 then MatMatModM B C m else return C

def advance_state (r : Stream) (e c : ℤ) : Tally Stream := do
  let C1 ← advanceMatrix A1p0 InvA1 m1 e c
  let C2 ← advanceMatrix A2p0 InvA2 m2 e c
  let Cg ← jump C1 C2 r.Cg_
  return { r with Cg_ := Cg }

/-- The number of steps of `advance_state`, backwards where it is negative. -/
def steps (e c : ℤ) : ℤ := if 0 < e then 2 ^ e.toNat + c else if e < 0 then -2 ^ (-e).toNat + c else c

/-- Whether a seed is refused. -/
def CheckSeed (seed : Fin 6 → ℕ) : Bool :=
  (∀ i : Fin 6, i.val < 3 → seed i < m1) ∧ (∀ i : Fin 6, 3 ≤ i.val → seed i < m2) ∧
    ¬ (seed 0 = 0 ∧ seed 1 = 0 ∧ seed 2 = 0) ∧ ¬ (seed 3 = 0 ∧ seed 4 = 0 ∧ seed 5 = 0)

def seedOf (seed : Fin 6 → ℕ) : Seed := ⟨![seed 0, seed 1, seed 2], ![seed 3, seed 4, seed 5]⟩

/-- The generators of a program and the seed of the next one. -/
structure Package where
  next_seed_ : Seed
  streams : List Stream

def start : Package := ⟨seedOf fun _ => 12345, []⟩

/-- A stream as `init` leaves it, and the package with the next seed. -/
def init (p : Package) : Tally (Stream × Package) := do
  let next ← jump A1p127 A2p127 p.next_seed_
  return (⟨p.next_seed_, p.next_seed_, p.next_seed_, false, false⟩, { p with next_seed_ := next })

inductive Event
  | rng
  | init (i : ℕ)
  | set_package_seed (seed : Fin 6 → ℕ)
  | set_seed (i : ℕ) (seed : ℤ)
  | set_seeds (i : ℕ) (seed : Fin 6 → ℕ)
  | rand_u01 (i : ℕ)
  | reset_start_stream (i : ℕ)
  | reset_start_substream (i : ℕ)
  | reset_next_substream (i : ℕ)
  | set_antithetic (i : ℕ) (a : Bool)
  | increased_precis (i : ℕ) (incp : Bool)
  | advance_state (i : ℕ) (e c : ℤ)

namespace Package

def set (p : Package) (i : ℕ) (r : Stream) : Package := { p with streams := p.streams.set i r }

/-- `none` is the call of `abort`. -/
def set_package_seed (p : Package) (seed : Fin 6 → ℕ) : Option Package :=
  if CheckSeed seed then some { p with next_seed_ := seedOf seed } else none

def initAt (p : Package) (i : ℕ) : Tally (Seed × Package) := do
  let (r, p) ← init p
  return (r.Ig_, p.set i r)

/-- One call. A call that starts a stream tells its seed. A long has `w` bits. -/
def step (w : ℕ) (p : Package) : Event → Option (Tally (Option Seed × Package))
  | .rng => some do
    let (r, p) ← RNG.init p
    return (some r.Ig_, { p with streams := p.streams ++ [r] })
  | .init i => do
    let _ ← p.streams[i]?
    some do
      let (seed, p) ← p.initAt i
      return (some seed, p)
  | .set_package_seed seed => do
    let p ← p.set_package_seed seed
    return pure (none, p)
  | .set_seed i seed =>
    if seed = 0 then none
    else do
      let _ ← p.streams[i]?
      let p ← p.set_package_seed fun _ => (seed % 2 ^ w).toNat
      some do
        let (seed, p) ← p.initAt i
        return (some seed, p)
  | .set_seeds i seed => do
    let r ← p.streams[i]?
    if CheckSeed seed then
      some (pure (none, p.set i { r with Cg_ := seedOf seed, Bg_ := seedOf seed, Ig_ := seedOf seed }))
    else none
  | .rand_u01 i => do
    let r ← p.streams[i]?
    some do
      let (_, r) ← RNG.rand_u01 r
      return (none, p.set i r)
  | .reset_start_stream i => do
    let r ← p.streams[i]?
    some (pure (none, p.set i (RNG.reset_start_stream r)))
  | .reset_start_substream i => do
    let r ← p.streams[i]?
    some (pure (none, p.set i (RNG.reset_start_substream r)))
  | .reset_next_substream i => do
    let r ← p.streams[i]?
    some do
      let r ← RNG.reset_next_substream r
      return (none, p.set i r)
  | .set_antithetic i a => do
    let r ← p.streams[i]?
    some (pure (none, p.set i { r with anti_ := a }))
  | .increased_precis i incp => do
    let r ← p.streams[i]?
    some (pure (none, p.set i { r with inc_prec_ := incp }))
  | .advance_state i e c => do
    let r ← p.streams[i]?
    some do
      let r ← RNG.advance_state r e c
      return (none, p.set i r)

end Package

/-- What a call tells: the seed of the stream that it starts, and the largest numbers that it uses and throws away. -/
structure Answer where
  started : Option Seed
  peak : ℕ
  discarded : ℕ

def machine (w : ℕ) : Machine Package Event Answer :=
  ⟨fun p e => (p.step w e).map fun t => (t.value.2, ⟨t.value.1, t.peak, t.discarded⟩)⟩

end RNG

end Ns2
