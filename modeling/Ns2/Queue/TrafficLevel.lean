import Ns2.Library.Adaptation
import Mathlib.Algebra.Order.Field.Rat
import Mathlib.Tactic.IntervalCases
import Mathlib.Tactic.NormNum
import Mathlib.Tactic.Positivity

namespace Ns2

/-- The table of `getLevel`: the band of the mean `e` and the deviation `d` in which the count lies. -/
def trafficLevel (e d : ℚ) (count : ℕ) : ℕ :=
  if count < e - 3 * d then 1
  else if count ≥ e - 3 * d ∧ count < e - 2 * d then 2
  else if count ≥ e - 2 * d ∧ count < e - d then 3
  else if count ≥ e - d ∧ count < e then 4
  else if count ≥ e ∧ count < e + d then 5
  else if count ≥ e + d ∧ count < e + 2 * d then 6
  else if count ≥ e + 2 * d ∧ count < e + 3 * d then 7
  else if count ≥ e + 3 * d then 8
  else 0

/-- The factor of a decrease at this level. -/
def levelBeta (level : ℕ) : ℚ := if level < 5 then 83 / 100 + 7 / 100 * (1 / 5) * (level - 1) else 9 / 10

/-- The amount of an increase at a high level. -/
def levelAlpha (maxp : ℚ) (level : ℕ) : ℚ := 1 / 4 * maxp * (1 / 8) * (level - 1)

variable {e d : ℚ} {count level : ℕ} {maxp : ℚ}

/-- The lower bound of a band is the upper bound of the band before it, whose test has failed. -/
theorem ite_band (c a b : ℚ) (below inside above : ℕ) :
    (if c < a then below else if c ≥ a ∧ c < b then inside else above) = if c < a then below else if c < b then inside else above :=
  ite_congr rfl (fun _ => rfl) fun high => if_congr (and_iff_right (not_lt.mp high)) rfl rfl

theorem ite_last (c a : ℚ) (below above none : ℕ) : (if c < a then below else if c ≥ a then above else none) = if c < a then below else above :=
  ite_congr rfl (fun _ => rfl) fun high => if_pos (not_lt.mp high)

theorem trafficLevel_eq (e d : ℚ) (count : ℕ) : trafficLevel e d count =
    if count < e - 3 * d then 1 else if count < e - 2 * d then 2 else if count < e - d then 3 else if count < e then 4
    else if count < e + d then 5 else if count < e + 2 * d then 6 else if count < e + 3 * d then 7 else 8 := by
  unfold trafficLevel
  rw [ite_band, ite_band, ite_band, ite_band, ite_band, ite_band, ite_last]

theorem trafficLevel_mem (e d : ℚ) (count : ℕ) : 1 ≤ trafficLevel e d count ∧ trafficLevel e d count ≤ 8 := by
  rw [trafficLevel_eq]
  split_ifs <;> omega

theorem levelBeta_mem (positive : 1 ≤ level) : 83 / 100 ≤ levelBeta level ∧ levelBeta level ≤ 9 / 10 := by
  unfold levelBeta
  split_ifs with low
  · have least : (1 : ℚ) ≤ level := by exact_mod_cast positive
    have most : (level : ℚ) ≤ 4 := by exact_mod_cast Nat.lt_succ_iff.mp low
    constructor <;> linarith
  · norm_num

theorem levelAlpha_mem (positive : 1 ≤ level) (most : level ≤ 8) (nonneg : 0 ≤ maxp) :
    0 ≤ levelAlpha maxp level ∧ levelAlpha maxp level ≤ 7 / 32 * maxp := by
  have least : (0 : ℚ) ≤ level - 1 := sub_nonneg.mpr (by exact_mod_cast positive)
  have bound : (level : ℚ) - 1 ≤ 7 := by linarith only [show (level : ℚ) ≤ 8 by exact_mod_cast most]
  have scaled := mul_le_mul_of_nonneg_left bound nonneg
  have start : 0 ≤ maxp * ((level : ℚ) - 1) := mul_nonneg nonneg least
  unfold levelAlpha
  constructor <;> linarith

/-- A level above the first says which bound between two bands the count has reached. -/
theorem le_trafficLevel_iff (nonneg : 0 ≤ d) {k : ℕ} (inside : k < 7) : k + 2 ≤ trafficLevel e d count ↔ e + ((k : ℚ) - 3) * d ≤ count := by
  rw [trafficLevel_eq]
  split_ifs <;> interval_cases k <;> norm_num <;> linarith

/-- Two counts are of the same level when no bound between two bands separates them. -/
theorem trafficLevel_eq_iff (nonneg : 0 ≤ d) {count' : ℕ} : trafficLevel e d count = trafficLevel e d count' ↔
    ∀ k : ℕ, k < 7 → (e + ((k : ℚ) - 3) * d ≤ count ↔ e + ((k : ℚ) - 3) * d ≤ count') := by
  constructor
  · intro same k inside
    rw [← le_trafficLevel_iff nonneg inside, same, le_trafficLevel_iff nonneg inside]
  · intro reached
    have above : ∀ {c c' : ℕ}, (∀ k : ℕ, k < 7 → e + ((k : ℚ) - 3) * d ≤ c → e + ((k : ℚ) - 3) * d ≤ c') → trafficLevel e d c ≤ trafficLevel e d c' := by
      intro c c' imp
      have bounds := trafficLevel_mem e d c
      by_cases first : trafficLevel e d c = 1
      · rw [first]
        exact (trafficLevel_mem e d c').1
      · obtain ⟨k, level⟩ : ∃ k, trafficLevel e d c = k + 2 := ⟨trafficLevel e d c - 2, by omega⟩
        have inside : k < 7 := by omega
        rw [level, le_trafficLevel_iff nonneg inside]
        exact imp k inside ((le_trafficLevel_iff nonneg inside).mp level.ge)
    exact le_antisymm (above fun k inside => (reached k inside).mp) (above fun k inside => (reached k inside).mpr)

end Ns2
