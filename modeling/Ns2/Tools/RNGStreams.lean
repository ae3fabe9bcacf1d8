import Ns2.Tools.RNGJumps

namespace Ns2

namespace RNG

variable {s t : Seed} {r : Stream} {p q : Package} {w : ℕ} {e : Event}

theorem next_lt (ranged : s.Ranged) : (next s).peak < 2 ^ 53 := by
  have one := ranged.1
  have two := ranged.2
  have zero1 := one 0
  have one1 := one 1
  have zero2 := two 0
  have two2 := two 2
  unfold m1 at zero1 one1
  unfold m2 at zero2 two2
  have bound1 : |a12 * s.fst 1| < 2 ^ 53 := by
    unfold a12
    exact abs_lt.mpr ⟨by omega, by omega⟩
  have bound2 : |a13n * s.fst 0| < 2 ^ 53 := by
    unfold a13n
    exact abs_lt.mpr ⟨by omega, by omega⟩
  have bound3 : |a21 * s.snd 2| < 2 ^ 53 := by
    unfold a21
    exact abs_lt.mpr ⟨by omega, by omega⟩
  have bound4 : |a23n * s.snd 0| < 2 ^ 53 := by
    unfold a23n
    exact abs_lt.mpr ⟨by omega, by omega⟩
  have sum1 : |a12 * s.fst 1 - a13n * s.fst 0| < 2 ^ 53 := by
    unfold a12 a13n
    exact abs_lt.mpr ⟨by omega, by omega⟩
  have sum2 : |a21 * s.snd 2 - a23n * s.snd 0| < 2 ^ 53 := by
    unfold a21 a23n
    exact abs_lt.mpr ⟨by omega, by omega⟩
  refine Tally.bind_lt (use_lt_two53 bound1 le_rfl) (Tally.bind_lt (use_lt_two53 bound2 le_rfl) ?_)
  refine Tally.bind_lt (use_lt_two53 sum1 le_rfl) (Tally.bind_lt ?_ ?_)
  · exact reduce_lt first.positive first.small (abs_lt.mp sum1).1 (abs_lt.mp sum1).2
  refine Tally.bind_lt (use_lt_two53 bound3 le_rfl) (Tally.bind_lt (use_lt_two53 bound4 le_rfl) ?_)
  refine Tally.bind_lt (use_lt_two53 sum2 le_rfl) (Tally.bind_lt ?_ (Tally.pure_lt (Nat.two_pow_pos 53) _))
  exact reduce_lt second.positive second.small (abs_lt.mp sum2).1 (abs_lt.mp sum2).2

theorem next_valid (valid : s.Valid) : (next s).value.Valid := valid.steps (next_ranged valid.ranged) (next_steps s)

/-- The three states of a stream are what states may be. -/
structure Stream.Valid (r : Stream) : Prop where
  current : r.Cg_.Valid
  substream : r.Bg_.Valid
  start : r.Ig_.Valid

theorem U01_valid (valid : r.Valid) : (U01 r).value.2.Valid ∧ (U01 r).peak < 2 ^ 53 :=
  ⟨⟨next_valid valid.current, valid.substream, valid.start⟩,
    Tally.bind_lt (next_lt valid.current.ranged) (Tally.pure_lt (Nat.two_pow_pos 53) _)⟩

theorem rand_u01_valid (valid : r.Valid) : (rand_u01 r).value.2.Valid ∧ (rand_u01 r).peak < 2 ^ 53 := by
  unfold rand_u01
  split_ifs
  · obtain ⟨once, peak⟩ := U01_valid valid
    obtain ⟨twice, peak'⟩ := U01_valid once
    unfold U01d
    refine ⟨?_, Tally.bind_lt peak (Tally.bind_lt peak' ?_)⟩
    · simp only [Tally.value_bind]
      split_ifs <;> exact twice
    · dsimp only
      split_ifs <;> exact Nat.two_pow_pos 53
  · exact U01_valid valid

theorem reset_next_substream_valid (valid : r.Valid) :
    (reset_next_substream r).value.Valid ∧ (reset_next_substream r).peak < 2 ^ 53 := by
  have moved : (jump A1p76 A2p76 r.Bg_).value.Valid := valid.substream.steps (jump_ranged _ _ _) (substream_steps _)
  refine ⟨⟨moved, moved, valid.start⟩, ?_⟩
  exact Tally.bind_lt (jump_lt first.entries76 second.entries76 valid.substream.ranged) (Tally.pure_lt (Nat.two_pow_pos 53) _)

theorem advance_state_valid (valid : r.Valid) (e c : ℤ) :
    (advance_state r e c).value.Valid ∧ (advance_state r e c).peak < 2 ^ 53 := by
  obtain ⟨steps, ranged⟩ := advance_steps r e c
  exact ⟨⟨valid.current.steps ranged steps, valid.substream, valid.start⟩, advance_lt valid.current.ranged e c⟩

theorem seedOf_valid {seed : Fin 6 → ℕ} (checked : CheckSeed seed = true) : (seedOf seed).Valid := by
  obtain ⟨low, high, some1, some2⟩ := of_decide_eq_true checked
  refine ⟨⟨fun i => ?_, fun i => ?_⟩, fun zero => some1 ?_, fun zero => some2 ?_⟩
  · match i with
    | 0 => exact ⟨Int.natCast_nonneg _, Int.ofNat_lt.mpr (low 0 (by decide))⟩
    | 1 => exact ⟨Int.natCast_nonneg _, Int.ofNat_lt.mpr (low 1 (by decide))⟩
    | 2 => exact ⟨Int.natCast_nonneg _, Int.ofNat_lt.mpr (low 2 (by decide))⟩
  · match i with
    | 0 => exact ⟨Int.natCast_nonneg _, Int.ofNat_lt.mpr (high 3 (by decide))⟩
    | 1 => exact ⟨Int.natCast_nonneg _, Int.ofNat_lt.mpr (high 4 (by decide))⟩
    | 2 => exact ⟨Int.natCast_nonneg _, Int.ofNat_lt.mpr (high 5 (by decide))⟩
  · exact ⟨Int.natCast_eq_zero.mp (congrFun zero 0), Int.natCast_eq_zero.mp (congrFun zero 1), Int.natCast_eq_zero.mp (congrFun zero 2)⟩
  · exact ⟨Int.natCast_eq_zero.mp (congrFun zero 0), Int.natCast_eq_zero.mp (congrFun zero 1), Int.natCast_eq_zero.mp (congrFun zero 2)⟩

structure Package.Valid (p : Package) : Prop where
  next : p.next_seed_.Valid
  streams : ∀ r ∈ p.streams, r.Valid

theorem start_valid : start.Valid := by
  have checked : CheckSeed (fun _ => 12345) = true := by decide
  exact ⟨seedOf_valid checked, nofun⟩

theorem Package.Valid.set (valid : p.Valid) (new : r.Valid) (i : ℕ) : (p.set i r).Valid := by
  refine ⟨valid.next, fun other member => ?_⟩
  rcases List.mem_or_eq_of_mem_set member with old | same
  · exact valid.streams other old
  · exact same ▸ new

/-- What a call leaves: a stream that it starts has the seed of the package, which is then the next one. -/
structure Answered (p : Package) (t : Tally (Option Seed × Package)) : Prop where
  valid : t.value.2.Valid
  peak : t.peak < 2 ^ 53
  next : t.value.1 = none ∧ t.value.2.next_seed_ = p.next_seed_ ∨
    t.value.1 = some p.next_seed_ ∧ Seed.Steps (2 ^ 127) p.next_seed_ t.value.2.next_seed_

theorem init_valid (valid : p.Valid) : (init p).value.1.Valid ∧ (init p).value.2.Valid ∧ (init p).peak < 2 ^ 53 ∧
    (init p).value.1.Ig_ = p.next_seed_ ∧ Seed.Steps (2 ^ 127) p.next_seed_ (init p).value.2.next_seed_ := by
  have steps := stream_steps p.next_seed_
  refine ⟨⟨valid.next, valid.next, valid.next⟩, ⟨valid.next.steps (jump_ranged A1p127 A2p127 p.next_seed_) steps, valid.streams⟩, ?_, rfl, steps⟩
  exact Tally.bind_lt (jump_lt first.entries127 second.entries127 valid.next.ranged) (Tally.pure_lt (Nat.two_pow_pos 53) _)

theorem initAt_answered (valid : p.Valid) (i : ℕ) : Answered p (do
    let (seed, p) ← p.initAt i
    return (some seed, p)) := by
  obtain ⟨stream, package, peak, seed, steps⟩ := init_valid valid
  have none := Nat.two_pow_pos 53
  exact ⟨package.set stream i, Tally.bind_lt (Tally.bind_lt peak none) none, Or.inr ⟨congrArg some seed, steps⟩⟩

theorem quiet_answered (valid : p.Valid) {r : Stream} (new : r.Valid) (i : ℕ) : Answered p (pure (none, p.set i r)) :=
  ⟨valid.set new i, Nat.two_pow_pos 53, Or.inl ⟨rfl, rfl⟩⟩

theorem moved_answered {t : Tally Stream} (valid : p.Valid) (new : t.value.Valid ∧ t.peak < 2 ^ 53) (i : ℕ) :
    Answered p (do
      let r ← t
      return (none, p.set i r)) :=
  ⟨valid.set new.1 i, Tally.bind_lt new.2 (Nat.two_pow_pos 53), Or.inl ⟨rfl, rfl⟩⟩

/-- The calls that give the package another seed. -/
def Event.Reseeds : Event → Prop
  | .set_package_seed _ => True
  | .set_seed .. => True
  | _ => False

/-- A package with its new seed. -/
theorem reseeded {seed : Fin 6 → ℕ} (valid : p.Valid) (taken : p.set_package_seed seed = some q) :
    q.Valid ∧ q.streams = p.streams := by
  unfold Package.set_package_seed at taken
  split_ifs at taken with checked
  cases Option.some.inj taken
  exact ⟨⟨seedOf_valid checked, valid.streams⟩, rfl⟩

/-- Every call leaves valid states, and its numbers are small. A stream that it starts has the seed of a package
that is valid, from which the next seed is one jump on. -/
theorem step_answered {t : Tally (Option Seed × Package)} (valid : p.Valid) (taken : p.step w e = some t) :
    ∃ q : Package, q.Valid ∧ (¬ e.Reseeds → q = p) ∧ Answered q t := by
  cases e with
  | rng =>
    cases Option.some.inj taken
    obtain ⟨stream, package, peak, seed, steps⟩ := init_valid valid
    refine ⟨p, valid, fun _ => rfl, ⟨package.next, fun r member => ?_⟩, Tally.bind_lt peak (Nat.two_pow_pos 53),
      Or.inr ⟨congrArg some seed, steps⟩⟩
    rcases List.mem_append.mp member with old | new
    · exact package.streams r old
    · exact List.mem_singleton.mp new ▸ stream
  | init i =>
    obtain ⟨_, _, rest⟩ := Option.bind_eq_some_iff.mp taken
    cases Option.some.inj rest
    exact ⟨p, valid, fun _ => rfl, initAt_answered valid i⟩
  | set_package_seed seed =>
    obtain ⟨q, set, rest⟩ := Option.bind_eq_some_iff.mp taken
    cases Option.some.inj rest
    obtain ⟨valid', _⟩ := reseeded valid set
    exact ⟨q, valid', fun other => absurd trivial other, valid', Nat.two_pow_pos 53, Or.inl ⟨rfl, rfl⟩⟩
  | set_seed i seed =>
    unfold Package.step at taken
    dsimp only at taken
    split_ifs at taken
    obtain ⟨_, _, rest⟩ := Option.bind_eq_some_iff.mp taken
    obtain ⟨q, set, rest⟩ := Option.bind_eq_some_iff.mp rest
    cases Option.some.inj rest
    obtain ⟨valid', _⟩ := reseeded valid set
    exact ⟨q, valid', fun other => absurd trivial other, initAt_answered valid' i⟩
  | set_seeds i seed =>
    obtain ⟨r, found, rest⟩ := Option.bind_eq_some_iff.mp taken
    split_ifs at rest with checked
    cases Option.some.inj rest
    have new := seedOf_valid checked
    exact ⟨p, valid, fun _ => rfl, quiet_answered valid ⟨new, new, new⟩ i⟩
  | rand_u01 i =>
    obtain ⟨r, found, rest⟩ := Option.bind_eq_some_iff.mp taken
    cases Option.some.inj rest
    obtain ⟨new, peak⟩ := rand_u01_valid (valid.streams r (List.mem_of_getElem? found))
    exact ⟨p, valid, fun _ => rfl, valid.set new i, Tally.bind_lt peak (Nat.two_pow_pos 53), Or.inl ⟨rfl, rfl⟩⟩
  | reset_start_stream i =>
    obtain ⟨r, found, rest⟩ := Option.bind_eq_some_iff.mp taken
    cases Option.some.inj rest
    have old := valid.streams r (List.mem_of_getElem? found)
    have new : (RNG.reset_start_stream r).Valid := ⟨old.start, old.start, old.start⟩
    exact ⟨p, valid, fun _ => rfl, quiet_answered valid new i⟩
  | reset_start_substream i =>
    obtain ⟨r, found, rest⟩ := Option.bind_eq_some_iff.mp taken
    cases Option.some.inj rest
    have old := valid.streams r (List.mem_of_getElem? found)
    have new : (RNG.reset_start_substream r).Valid := ⟨old.substream, old.substream, old.start⟩
    exact ⟨p, valid, fun _ => rfl, quiet_answered valid new i⟩
  | reset_next_substream i =>
    obtain ⟨r, found, rest⟩ := Option.bind_eq_some_iff.mp taken
    cases Option.some.inj rest
    exact ⟨p, valid, fun _ => rfl, moved_answered valid (reset_next_substream_valid (valid.streams r (List.mem_of_getElem? found))) i⟩
  | set_antithetic i a =>
    obtain ⟨r, found, rest⟩ := Option.bind_eq_some_iff.mp taken
    cases Option.some.inj rest
    have old := valid.streams r (List.mem_of_getElem? found)
    have new : Stream.Valid { r with anti_ := a } := ⟨old.current, old.substream, old.start⟩
    exact ⟨p, valid, fun _ => rfl, quiet_answered valid new i⟩
  | increased_precis i incp =>
    obtain ⟨r, found, rest⟩ := Option.bind_eq_some_iff.mp taken
    cases Option.some.inj rest
    have old := valid.streams r (List.mem_of_getElem? found)
    have new : Stream.Valid { r with inc_prec_ := incp } := ⟨old.current, old.substream, old.start⟩
    exact ⟨p, valid, fun _ => rfl, quiet_answered valid new i⟩
  | advance_state i e c =>
    obtain ⟨r, found, rest⟩ := Option.bind_eq_some_iff.mp taken
    cases Option.some.inj rest
    exact ⟨p, valid, fun _ => rfl, moved_answered valid (advance_state_valid (valid.streams r (List.mem_of_getElem? found)) e c) i⟩

/-- The seeds of the streams that a run starts. -/
def starts (outs : List Answer) : List Seed := outs.filterMap Answer.started

/-- In a run the states are valid and the numbers small, and where no call after the first gives the package
another seed the streams start one jump after the other. -/
theorem run_valid {events : List Event} {outs : List Answer} (valid : p.Valid) (run : (machine w).run p events = some (q, outs)) :
    q.Valid ∧ (∀ out ∈ outs, out.peak < 2 ^ 53) ∧
      ((∀ e ∈ events, ¬ e.Reseeds) → ∀ s ∈ (starts outs).head?, s = p.next_seed_) ∧
      ((∀ e ∈ events.tail, ¬ e.Reseeds) → (starts outs).IsChain (Jumps (2 ^ 127))) := by
  induction events generalizing p outs with
  | nil =>
    cases Option.some.inj run
    exact ⟨valid, nofun, fun _ => nofun, fun _ => .nil⟩
  | cons e events ih =>
    obtain ⟨⟨mid, out⟩, taken, rest⟩ := Option.bind_eq_some_iff.mp run
    obtain ⟨⟨last, outs⟩, later, joined⟩ := Option.bind_eq_some_iff.mp rest
    cases Option.some.inj joined
    obtain ⟨t, stepped, same⟩ := Option.map_eq_some_iff.mp taken
    cases same
    obtain ⟨q, validQ, kept, answered⟩ := step_answered valid stepped
    obtain ⟨valid', peaks, head, chain⟩ := ih answered.valid later
    refine ⟨valid', List.forall_mem_cons.mpr ⟨answered.peak, peaks⟩, ?_⟩
    change (_ → ∀ s ∈ (starts (⟨t.value.1, t.peak, t.discarded⟩ :: outs)).head?, _) ∧
      (_ → (starts (⟨t.value.1, t.peak, t.discarded⟩ :: outs)).IsChain _)
    have tail : (∀ e ∈ events, ¬ e.Reseeds) → ∀ e ∈ events.tail, ¬ e.Reseeds := fun none e member =>
      none e (List.mem_of_mem_tail member)
    unfold starts at head chain ⊢
    rcases answered.next with ⟨quiet, same⟩ | ⟨started, steps⟩
    · rw [List.filterMap_cons_none (by exact quiet)]
      refine ⟨fun none => ?_, fun none => chain (tail none)⟩
      obtain ⟨first, none⟩ := List.forall_mem_cons.mp none
      cases kept first
      rw [← same]
      exact head none
    · rw [List.filterMap_cons_some (by exact started)]
      refine ⟨fun none s same => ?_, fun none => ?_⟩
      · cases kept (none e List.mem_cons_self)
        exact (Option.some.inj same).symm
      · refine List.isChain_cons.mpr ⟨fun s member => ?_, chain (tail none)⟩
        rw [head none s member]
        exact steps.jumps validQ.next.ranged answered.valid.next.ranged

/-- Jumps are exact, streams and substreams begin where they are to begin, and every number that a result
depends on is below 2^53. -/
theorem streams (w : ℕ) :
    (∀ (r : Stream) (e c : ℤ), r.Cg_.Ranged →
      (advance_state r e c).value.Cg_.Ranged ∧ Jumps (steps e c) r.Cg_ (advance_state r e c).value.Cg_) ∧
    (∀ r : Stream, r.Bg_.Ranged → (reset_next_substream r).value.Bg_.Ranged ∧
      Jumps (2 ^ 76) r.Bg_ (reset_next_substream r).value.Bg_ ∧ (reset_next_substream r).value.Cg_ = (reset_next_substream r).value.Bg_) ∧
    (∀ (before : List Event) (p : Package) (outs : List Answer), (machine w).run start before = some (p, outs) →
      p.Valid ∧ (∀ out ∈ outs, out.peak < 2 ^ 53) ∧
      ∀ (after : List Event) (q : Package) (outs : List Answer), (machine w).run p after = some (q, outs) →
        (∀ e ∈ after.tail, ¬ e.Reseeds) → (starts outs).IsChain (Jumps (2 ^ 127))) := by
  refine ⟨fun r e c ranged => ?_, fun r ranged => ?_, fun before p outs run => ?_⟩
  · obtain ⟨steps, ranged'⟩ := advance_steps r e c
    exact ⟨ranged', steps.jumps ranged ranged'⟩
  · have ranged' := jump_ranged A1p76 A2p76 r.Bg_
    exact ⟨ranged', (substream_steps r.Bg_).jumps ranged ranged', rfl⟩
  · obtain ⟨valid, peaks, _⟩ := run_valid start_valid run
    exact ⟨valid, peaks, fun after q outs later => (run_valid valid later).2.2.2⟩

/-- The first product of `MultModM` may be far above 2^53, and is thrown away then. -/
theorem product_above : ∃ p outs, (machine 64).run start [.rng, .rng, .reset_next_substream 1] = some (p, outs) ∧
    ∃ out ∈ outs, 2 ^ 53 ≤ out.discarded := by
  have large : ((machine 64).run start [.rng, .rng, .reset_next_substream 1]).any fun last =>
      last.2.any fun out => 2 ^ 53 ≤ out.discarded := by
    decide +kernel
  obtain ⟨⟨p, outs⟩, run, above⟩ := (Option.any_eq_true ..).mp large
  obtain ⟨out, member, discarded⟩ := List.any_eq_true.mp above
  exact ⟨p, outs, run, out, member, of_decide_eq_true discarded⟩

end RNG

end Ns2
