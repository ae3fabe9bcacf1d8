import Ns2.Queue.RED

namespace Ns2

namespace REDQueue

/-- What changes `cur_max_p` in adaptive RED, and the arrivals that the level counts. -/
inductive Adapting
  | arrival (pkt : Packet)
  | updateMaxP (newAve now : ℚ)
  | updateMaxPYZR (newAve now : ℚ)
deriving DecidableEq

def adaptingStep (s : REDQueue) : Adapting → REDQueue
  | .arrival pkt => s.countArrival pkt
  | .updateMaxP newAve now => s.updateMaxP newAve now
  | .updateMaxPYZR newAve now => s.updateMaxPYZR newAve now

def adapting : Machine REDQueue Adapting Unit := ⟨fun s i => some (s.adaptingStep i, ())⟩

/-- The average is below the target range, and `cur_max_p` is not at its lower bound. -/
abbrev Falls (s : REDQueue) (newAve : ℚ) : Prop :=
  newAve < s.edp.thMin + 4 / 10 * (s.edp.thMax - s.edp.thMin) ∧ s.edv.curMaxP > s.edp.bottom

/-- The average is above the target range, and `cur_max_p` is not at its upper bound. -/
abbrev Rises (s : REDQueue) (newAve : ℚ) : Prop :=
  newAve > s.edp.thMax - 4 / 10 * (s.edp.thMax - s.edp.thMin) ∧ s.edp.top > s.edv.curMaxP

/-- An adaptation with these steps down and up. -/
def adjustment (s : REDQueue) (newAve factor amount : ℚ) : Adjustment ℚ :=
  if s.Falls newAve then .scale factor else if s.Rises newAve then .add amount else .keep

def level (s : REDQueue) : ℕ := trafficLevel E1 D1 s.pktcntPersLevel

/-- The step up of the authors' variant. -/
def amountYZR (s : REDQueue) : ℚ :=
  if s.level > 6 then levelAlpha s.edv.curMaxP s.level else min (s.edv.curMaxP / 4) s.edp.alpha

def Adapting.adjustment (s : REDQueue) : Adapting → Adjustment ℚ
  | .arrival _ => .keep
  | .updateMaxP newAve _ => s.adjustment newAve s.edp.beta (min (s.edv.curMaxP / 4) s.edp.alpha)
  | .updateMaxPYZR newAve _ => s.adjustment newAve (levelBeta s.level) s.amountYZR

/-- `alpha_` is a step up and `beta_` a factor down. -/
structure Tuned (p : Edp) : Prop where
  alpha : 0 ≤ p.alpha
  beta : 0 ≤ p.beta ∧ p.beta ≤ 1
  bottom : 0 ≤ p.bottom

/-- `cur_max_p` is between the bounds for it. -/
def InBounds (s : REDQueue) : Prop := s.edv.curMaxP ∈ Set.Icc s.edp.bottom s.edp.top

/-- A step down starts high enough above `bottom`, and a step up low enough below `top`. -/
def HasRoom (s : REDQueue) (i : Adapting) : Prop := (i.adjustment s).Fits s.edp.bottom s.edp.top s.edv.curMaxP

variable {s : REDQueue} {newAve now : ℚ}

theorem updateMaxP_eq (s : REDQueue) (newAve now : ℚ) : s.updateMaxP newAve now =
    { s with
      edv.curMaxP := (s.adjustment newAve s.edp.beta (min (s.edv.curMaxP / 4) s.edp.alpha)).apply s.edv.curMaxP, edv.lastset := now } := by
  unfold updateMaxP adjustment Falls Rises
  have least : (if s.edp.alpha > 1 / 4 * s.edv.curMaxP then 1 / 4 * s.edv.curMaxP else s.edp.alpha) = min (s.edv.curMaxP / 4) s.edp.alpha := by
    have quarter : 1 / 4 * s.edv.curMaxP = s.edv.curMaxP / 4 := by ring
    rw [quarter, min_def]
    split_ifs <;> grind
  simp only [least]
  split_ifs <;> rfl

theorem updateMaxPYZR_eq (s : REDQueue) (newAve now : ℚ) : s.updateMaxPYZR newAve now =
    { s with
      edp.beta := if s.Falls newAve then levelBeta s.level else s.edp.beta, pktcntPersLevel := 0,
      edv.curMaxP := (s.adjustment newAve (levelBeta s.level) s.amountYZR).apply s.edv.curMaxP, edv.lastset := now } := by
  unfold updateMaxPYZR adjustment Falls Rises amountYZR getLevel level
  simp only [min_def]
  split_ifs <;> rfl

theorem countArrival_eq (s : REDQueue) (pkt : Packet) : (s.countArrival pkt).edp = s.edp ∧ (s.countArrival pkt).edv = s.edv := by
  unfold countArrival
  split_ifs <;> exact ⟨rfl, rfl⟩

theorem adaptingStep_curMaxP (s : REDQueue) (i : Adapting) :
    (s.adaptingStep i).edv.curMaxP = (i.adjustment s).apply s.edv.curMaxP := by
  cases i with
  | arrival pkt => rw [adaptingStep, (s.countArrival_eq pkt).2]; rfl
  | updateMaxP newAve now => rw [adaptingStep, updateMaxP_eq]; rfl
  | updateMaxPYZR newAve now => rw [adaptingStep, updateMaxPYZR_eq]; rfl

theorem adaptingStep_bounds (s : REDQueue) (i : Adapting) :
    (s.adaptingStep i).edp.bottom = s.edp.bottom ∧ (s.adaptingStep i).edp.top = s.edp.top := by
  cases i with
  | arrival pkt => rw [adaptingStep, (s.countArrival_eq pkt).1]; exact ⟨rfl, rfl⟩
  | updateMaxP newAve now => rw [adaptingStep, updateMaxP_eq]; exact ⟨rfl, rfl⟩
  | updateMaxPYZR newAve now => rw [adaptingStep, updateMaxPYZR_eq]; exact ⟨rfl, rfl⟩

theorem levelBeta_level (s : REDQueue) : 83 / 100 ≤ levelBeta s.level ∧ levelBeta s.level ≤ 9 / 10 :=
  levelBeta_mem (trafficLevel_mem E1 D1 s.pktcntPersLevel).1

theorem adaptingStep_tuned (tuned : Tuned s.edp) (i : Adapting) : Tuned (s.adaptingStep i).edp := by
  cases i with
  | arrival pkt => rwa [adaptingStep, (s.countArrival_eq pkt).1]
  | updateMaxP newAve now => rw [adaptingStep, updateMaxP_eq]; exact tuned
  | updateMaxPYZR newAve now =>
    rw [adaptingStep, updateMaxPYZR_eq]
    refine ⟨tuned.alpha, ?_, tuned.bottom⟩
    split_ifs
    · have factor := s.levelBeta_level
      exact ⟨by linarith, by linarith⟩
    · exact tuned.beta

theorem amountYZR_nonneg (tuned : Tuned s.edp) (nonneg : 0 ≤ s.edv.curMaxP) : 0 ≤ s.amountYZR := by
  have level := trafficLevel_mem E1 D1 s.pktcntPersLevel
  unfold amountYZR
  split_ifs
  · exact (levelAlpha_mem level.1 level.2 nonneg).1
  · exact le_min (by linarith) tuned.alpha

theorem adjustment_sane {factor amount : ℚ} (down : 0 ≤ factor ∧ factor ≤ 1) (up : 0 ≤ amount) :
    (s.adjustment newAve factor amount).Sane := by
  unfold adjustment
  split_ifs
  · exact down
  · exact up
  · trivial

theorem Adapting.adjustment_sane (tuned : Tuned s.edp) (nonneg : 0 ≤ s.edv.curMaxP) (i : Adapting) : (i.adjustment s).Sane := by
  cases i with
  | arrival pkt => trivial
  | updateMaxP newAve now => exact REDQueue.adjustment_sane tuned.beta (le_min (by linarith) tuned.alpha)
  | updateMaxPYZR newAve now =>
    have factor := s.levelBeta_level
    exact REDQueue.adjustment_sane ⟨by linarith, by linarith⟩ (amountYZR_nonneg tuned nonneg)

/-- One adaptation stays between the bounds exactly when it has room. -/
theorem adaptingStep_inBounds_iff (tuned : Tuned s.edp) (inside : s.InBounds) (i : Adapting) :
    (s.adaptingStep i).InBounds ↔ s.HasRoom i := by
  obtain ⟨bottom, top⟩ := s.adaptingStep_bounds i
  have nonneg : 0 ≤ s.edv.curMaxP := tuned.bottom.trans inside.1
  rw [InBounds, bottom, top, adaptingStep_curMaxP]
  exact Adjustment.apply_mem_iff (Adapting.adjustment_sane tuned nonneg i) tuned.bottom inside

theorem amountYZR_le (nonneg : 0 ≤ s.edv.curMaxP) : s.amountYZR ≤ s.edv.curMaxP / 4 := by
  have level := trafficLevel_mem E1 D1 s.pktcntPersLevel
  unfold amountYZR
  split_ifs
  · have most := (levelAlpha_mem level.1 level.2 nonneg).2
    unfold REDQueue.level
    linarith
  · exact min_le_left _ _

theorem adjustment_guarded {factor amount least most : ℚ} (down : least ≤ factor) (up : s.edp.top > s.edv.curMaxP → amount ≤ most) :
    (∀ b, s.adjustment newAve factor amount = .scale b → least ≤ b ∧ s.edp.bottom < s.edv.curMaxP) ∧
      ∀ b, s.adjustment newAve factor amount = .add b → b ≤ most ∧ s.edv.curMaxP < s.edp.top := by
  unfold adjustment
  split_ifs with falls rises
  · refine ⟨?_, ?_⟩ <;> rintro b ⟨⟩
    exact ⟨down, falls.2⟩
  · refine ⟨?_, ?_⟩ <;> rintro b ⟨⟩
    exact ⟨up rises.2, rises.2⟩
  · refine ⟨?_, ?_⟩ <;> rintro b ⟨⟩

/-- The steps down are no deeper than `least`, and those up at most a quarter of `top`. -/
theorem Adapting.adjustment_guarded {least : ℚ} (nonneg : 0 ≤ s.edv.curMaxP) (most : least ≤ 83 / 100) (factor : least ≤ s.edp.beta) (i : Adapting) :
    (∀ b, i.adjustment s = .scale b → least ≤ b ∧ s.edp.bottom < s.edv.curMaxP) ∧
      ∀ b, i.adjustment s = .add b → b ≤ s.edp.top / 4 ∧ s.edv.curMaxP < s.edp.top := by
  cases i with
  | arrival pkt => refine ⟨?_, ?_⟩ <;> rintro b ⟨⟩
  | updateMaxP newAve now =>
    refine REDQueue.adjustment_guarded factor fun below => ?_
    exact (min_le_left _ _).trans (by linarith)
  | updateMaxPYZR newAve now =>
    refine REDQueue.adjustment_guarded (most.trans s.levelBeta_level.1) fun below => ?_
    exact (amountYZR_le nonneg).trans (by linarith)

/-- What the bound on the overshoot rests on. -/
structure Sound (least : ℚ) (s : REDQueue) : Prop where
  tuned : Tuned s.edp
  factor : least ≤ s.edp.beta
  inside : s.edv.curMaxP ∈ Set.Icc (s.edp.bottom * least) (s.edp.top + s.edp.top / 4)

theorem Sound.step {least : ℚ} (sound : Sound least s) (nonneg : 0 ≤ least) (most : least ≤ 83 / 100) (i : Adapting) :
    Sound least (s.adaptingStep i) where
  tuned := adaptingStep_tuned sound.tuned i
  factor := by
    cases i with
    | arrival pkt => rw [adaptingStep, (s.countArrival_eq pkt).1]; exact sound.factor
    | updateMaxP newAve now => rw [adaptingStep, updateMaxP_eq]; exact sound.factor
    | updateMaxPYZR newAve now =>
      rw [adaptingStep, updateMaxPYZR_eq]
      split_ifs
      · exact most.trans s.levelBeta_level.1
      · exact sound.factor
  inside := by
    obtain ⟨bottom, top⟩ := s.adaptingStep_bounds i
    have positive : 0 ≤ s.edv.curMaxP := (mul_nonneg sound.tuned.bottom nonneg).trans sound.inside.1
    obtain ⟨scaled, added⟩ := Adapting.adjustment_guarded positive most sound.factor i
    rw [bottom, top, adaptingStep_curMaxP]
    exact Adjustment.apply_mem_of_guarded (Adapting.adjustment_sane sound.tuned positive i) sound.tuned.bottom scaled added sound.inside positive

/-- Without room `cur_max_p` leaves its bounds by one step at most, in all runs. -/
theorem adapting_overshoot {least : ℚ} (tuned : Tuned s.edp) (inside : s.InBounds) (nonneg : 0 ≤ least) (most : least ≤ 83 / 100)
    (factor : least ≤ s.edp.beta) (calls : List Adapting) :
    adapting.Throughout (fun next => next.edv.curMaxP ∈ Set.Icc (next.edp.bottom * least) (next.edp.top + next.edp.top / 4)) s calls := by
  have lower : s.edp.bottom * least ≤ s.edp.bottom := mul_le_of_le_one_right tuned.bottom (by linarith)
  have upper : 0 ≤ s.edp.top := tuned.bottom.trans (inside.1.trans inside.2)
  have sound : Sound least s := ⟨tuned, factor, lower.trans inside.1, inside.2.trans (by linarith)⟩
  refine (Machine.throughout_iff_along (P := fun _ _ => True) (K := Sound least) (fun s i sound _ => ?_) sound sound.inside).mpr
    (Machine.along_trivial adapting s calls)
  have next := sound.step nonneg most i
  exact ⟨s.adaptingStep i, (), rfl, next, fun _ => trivial, fun _ => next.inside⟩

theorem adapting_overshoot_sample :
    adapting.Throughout (fun next => next.edv.curMaxP ∈ Set.Icc (next.edp.bottom * (83 / 100)) (next.edp.top + next.edp.top / 4))
      { make .between 0 0 with edv.curMaxP := 1 / 10 } [.updateMaxP 30 1, .updateMaxPYZR 60 2] :=
  adapting_overshoot ⟨by decide +kernel, by decide +kernel, by decide +kernel⟩ ⟨by decide +kernel, by decide +kernel⟩ (by norm_num) le_rfl
    (by decide +kernel) _

end REDQueue

end Ns2
