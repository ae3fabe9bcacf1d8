import Ns2.Queue.Myred

namespace Ns2

variable {α : Type*}

namespace Ared

/-- `getAvg` at a time at which the queue holds `q`. -/
def sample (s : Ared α) (q : List α) : Ared α := getAvg { s with q := q }

def sampling : Machine (Ared α) (List α) Unit := ⟨fun s q => some (s.sample q, ())⟩

/-- The average after this sample. -/
def nextAvg (s : Ared α) (q : List α) : ℚ := (1 - s.wq) * s.avgL + s.wq * q.length

/-- What the sample does to `maxp`. -/
def adjustment (s : Ared α) (q : List α) : Adjustment ℚ :=
  if s.nextAvg q > s.maxtarget ∧ s.maxp ≤ 1 / 2 then .add s.alpha
  else if s.nextAvg q < s.mintarget ∧ s.maxp ≥ 1 / 100 then .scale s.beta
  else .keep

def InRange (s : Ared α) : Prop := s.maxp ∈ Set.Icc (1 / 100 : ℚ) (1 / 2)

/-- A decrease of `maxp` starts high enough, and an increase low enough. -/
def HasRoom (s : Ared α) (q : List α) : Prop := (s.adjustment q).Fits (1 / 100) (1 / 2) s.maxp

instance (s : Ared α) (q : List α) : Decidable (s.HasRoom q) := inferInstanceAs (Decidable ((s.adjustment q).Fits (1 / 100) (1 / 2) s.maxp))

/-- The step sizes are those that the constructor and `getAvg` leave. -/
structure Tuned (s : Ared α) : Prop where
  alpha : s.alpha = if s.maxp / 4 ≤ 1 / 100 then s.maxp / 4 else 1 / 100
  beta : s.beta = 9 / 10

variable {s : Ared α} {q : List α}

theorem sample_maxp (s : Ared α) (q : List α) : (s.sample q).maxp = (s.adjustment q).apply s.maxp := by
  unfold sample getAvg Myred.getAvg adjustment nextAvg
  dsimp only
  split_ifs <;> rfl

theorem sample_tuned (tuned : Tuned s) (q : List α) : Tuned (s.sample q) := by
  refine ⟨rfl, ?_⟩
  unfold sample getAvg
  dsimp only
  split_ifs <;> exact tuned.beta

theorem Tuned.adjustment_sane (tuned : Tuned s) (nonneg : 0 ≤ s.maxp) (q : List α) : (s.adjustment q).Sane := by
  unfold adjustment
  split_ifs
  · change 0 ≤ s.alpha
    rw [tuned.alpha]
    split_ifs <;> linarith
  · change 0 ≤ s.beta ∧ s.beta ≤ 1
    rw [tuned.beta]
    norm_num
  · trivial

/-- `maxp` stays in its range exactly in the runs whose samples all have room. -/
theorem sampling_inRange_iff (tuned : Tuned s) (inside : s.InRange) (samples : List (List α)) :
    sampling.Throughout InRange s samples ↔ sampling.Along HasRoom s samples := by
  refine Machine.throughout_iff_along (K := Tuned) (fun s q tuned inside => ?_) tuned inside
  refine ⟨s.sample q, (), rfl, sample_tuned tuned q, ?_⟩
  have nonneg : 0 ≤ s.maxp := le_trans (by norm_num) inside.1
  rw [InRange, sample_maxp]
  exact Adjustment.apply_mem_iff (tuned.adjustment_sane nonneg q) (by norm_num) inside

theorem make_tuned (pktcnt : ℕ) (maxp pertime : ℚ) : Tuned (make pktcnt maxp pertime : Ared α) := ⟨rfl, rfl⟩

end Ared

namespace Pared

/-- `getAvg` at a time at which the queue holds `q` and `arrivals` more packets have come. -/
def sample (s : Pared α) (arrivals : ℕ) (q : List α) : Pared α := getAvg { s with q := q, pktcntPers := s.pktcntPers + arrivals }

def sampling : Machine (Pared α) (ℕ × List α) Unit := ⟨fun s i => some (s.sample i.1 i.2, ())⟩

def nextAvg (s : Pared α) (q : List α) : ℚ := (1 - s.wq) * s.avgL + s.wq * q.length

def nextLevel (s : Pared α) (arrivals : ℕ) : ℕ := trafficLevel E1 D1 (s.pktcntPers + arrivals)

/-- What the sample does to `maxp`. -/
def adjustment (s : Pared α) (i : ℕ × List α) : Adjustment ℚ :=
  if s.nextAvg i.2 > s.maxtarget ∧ s.maxp < 1 / 2 then
    .add (if s.nextLevel i.1 ≥ 5 then levelAlpha s.maxp (s.nextLevel i.1) else if s.maxp / 4 ≤ 1 / 100 then s.maxp / 4 else 1 / 100)
  else if s.nextAvg i.2 < s.mintarget ∧ s.maxp > 1 / 100 then .scale (levelBeta (s.nextLevel i.1))
  else .keep

def InRange (s : Pared α) : Prop := s.maxp ∈ Set.Icc (1 / 100 : ℚ) (1 / 2)

/-- A decrease of `maxp` starts high enough, and an increase low enough. -/
def HasRoom (s : Pared α) (i : ℕ × List α) : Prop := (s.adjustment i).Fits (1 / 100) (1 / 2) s.maxp

instance (s : Pared α) (i : ℕ × List α) : Decidable (s.HasRoom i) := inferInstanceAs (Decidable ((s.adjustment i).Fits (1 / 100) (1 / 2) s.maxp))

variable {s : Pared α}

theorem sample_maxp (s : Pared α) (i : ℕ × List α) : (s.sample i.1 i.2).maxp = (s.adjustment i).apply s.maxp := by
  unfold sample getAvg Myred.getAvg adjustment nextAvg nextLevel getLevel
  dsimp only
  split_ifs <;> rfl

theorem adjustment_sane (nonneg : 0 ≤ s.maxp) (i : ℕ × List α) : (s.adjustment i).Sane := by
  have level := trafficLevel_mem E1 D1 (s.pktcntPers + i.1)
  unfold adjustment nextLevel
  split_ifs
  · exact (levelAlpha_mem level.1 level.2 nonneg).1
  · change 0 ≤ s.maxp / 4
    linarith
  · change (0 : ℚ) ≤ 1 / 100
    norm_num
  · have factor := levelBeta_mem level.1
    exact ⟨by linarith, by linarith⟩
  · trivial

/-- `maxp` stays in its range exactly in the runs whose samples all have room. -/
theorem sampling_inRange_iff (inside : s.InRange) (samples : List (ℕ × List α)) :
    sampling.Throughout InRange s samples ↔ sampling.Along HasRoom s samples := by
  refine Machine.throughout_iff_along (K := fun _ => True) (fun s i _ inside => ?_) trivial inside
  refine ⟨s.sample i.1 i.2, (), rfl, trivial, ?_⟩
  have nonneg : 0 ≤ s.maxp := le_trans (by norm_num) inside.1
  rw [InRange, sample_maxp]
  exact Adjustment.apply_mem_iff (adjustment_sane nonneg i) (by norm_num) inside

end Pared

end Ns2
