import Ns2.Library.FirstEvent
import Ns2.Queue.REDRoutines
import Mathlib.Algebra.Order.Floor.Semifield

namespace Ns2

namespace REDQueue

/-- The lines of the drop probability are those of the thresholds and of the first `max_p`. -/
structure Lined (s : REDQueue) : Prop where
  below : s.edp.thMin < s.edp.thMax → s.edv.vA = 1 / (s.edp.thMax - s.edp.thMin) ∧ s.edv.vB = -s.edp.thMin / (s.edp.thMax - s.edp.thMin)
  beyond : s.edp.gentle → s.edv.vC = (1 - 1 / s.edp.maxPInv) / s.edp.thMax ∧ s.edv.vD = 2 * (1 / s.edp.maxPInv) - 1

/-- The base probability in this state at an average queue size. -/
def baseProbability (s : REDQueue) (vAve : ℚ) : ℚ :=
  calculatePNew vAve s.edp.thMax s.edp.gentle s.edv.vA s.edv.vB s.edv.vC s.edv.vD s.edv.curMaxP

variable {s t : REDQueue} {lib : Libm} {now : ℚ} {draws : Draws} {pkt : Packet} {droptype : Droptype}

theorem Lined.settings (lined : Lined s) (settings : Settings s t) : Lined t := by
  obtain ⟨a, b, c, d⟩ := settings.line
  constructor
  · rw [a, b, settings.edp]
    exact lined.below
  · rw [c, d, settings.edp]
    exact lined.beyond

theorem resetEdv_lined (p : Edp) (v : Edv) (s : REDQueue) : Lined { s with edp := p, edv := resetEdv p v } := by
  constructor
  · intro ordered
    have apart : p.thMax - p.thMin ≠ 0 := (sub_pos.mpr ordered).ne'
    dsimp only [resetEdv]
    rw [if_neg apart]
    split_ifs <;> exact ⟨rfl, rfl⟩
  · intro gentle
    dsimp only [resetEdv]
    rw [if_pos gentle]
    exact ⟨rfl, rfl⟩

theorem reset_lined (lib : Libm) (s : REDQueue) (now : ℚ) : Lined (reset lib s now).1 :=
  (resetEdv_lined (resetEdp lib s) s.edv { s with idle := true, idletime := now }).settings (drain_settings now _ _)

theorem Lined.step {i : Input} {out : Output} (lined : Lined s) (taken : step lib s i = some (t, out)) : Lined t := by
  cases i with
  | enque now draws pkt => exact lined.settings (enque_settled taken).1
  | deque now =>
    cases Option.some.inj taken
    exact lined.settings (deque_settings s now)
  | reset now =>
    cases Option.some.inj taken
    exact reset_lined lib s now
  | report =>
    cases Option.some.inj taken
    exact lined.settings ⟨rfl, ⟨rfl, rfl, rfl, rfl⟩, rfl, rfl, rfl, rfl, rfl, rfl, rfl, rfl⟩

theorem Reachable.lined (reachable : Reachable lib s) : Lined s := by
  obtain ⟨first, now, calls, outs, run⟩ := reachable
  exact Machine.run_kept (P := fun _ _ => True) (fun s i next out lined _ taken => lined.step taken) (reset_lined lib first now)
    (Machine.along_trivial _ _ _) run

theorem clip_eq (p : ℚ) : (if p > 1 then 1 else p) = min 1 p := by
  split_ifs with large
  · exact (min_eq_left large.le).symm
  · exact (min_eq_right (not_lt.mp large)).symm

theorem baseProbability_eq (s : REDQueue) (x : ℚ) : s.baseProbability x = min 1 (
    if s.edp.gentle ∧ x ≥ s.edp.thMax then s.edv.vC * x + s.edv.vD
    else if ¬s.edp.gentle ∧ x ≥ s.edp.thMax then 1
    else (s.edv.vA * x + s.edv.vB) * s.edv.curMaxP) := clip_eq _

theorem baseProbability_le_one (s : REDQueue) (x : ℚ) : s.baseProbability x ≤ 1 := by
  rw [baseProbability_eq]
  exact min_le_left _ _

/-- Below `th_max` the probability is on the line from 0 at `th_min` to `cur_max_p` at `th_max`. -/
theorem baseProbability_below (lined : Lined s) (ordered : s.edp.thMin < s.edp.thMax) {x : ℚ} (below : x < s.edp.thMax) :
    s.baseProbability x = min 1 ((x - s.edp.thMin) / (s.edp.thMax - s.edp.thMin) * s.edv.curMaxP) := by
  obtain ⟨a, b⟩ := lined.below ordered
  have line : s.edv.vA * x + s.edv.vB = (x - s.edp.thMin) / (s.edp.thMax - s.edp.thMin) := by
    rw [a, b]
    ring
  rw [baseProbability_eq, if_neg fun both => absurd both.2 (not_le.mpr below), if_neg fun both => absurd both.2 (not_le.mpr below), line]

/-- From `th_max` on it is on the line from the first `max_p` to 1 at twice `th_max`. -/
theorem baseProbability_beyond (lined : Lined s) (gentle : s.edp.gentle) (positive : 0 < s.edp.thMax) {x : ℚ} (beyond : s.edp.thMax ≤ x) :
    s.baseProbability x = min 1 (1 / s.edp.maxPInv + (x - s.edp.thMax) / s.edp.thMax * (1 - 1 / s.edp.maxPInv)) := by
  obtain ⟨c, d⟩ := lined.beyond gentle
  have line : s.edv.vC * x + s.edv.vD = 1 / s.edp.maxPInv + (x - s.edp.thMax) / s.edp.thMax * (1 - 1 / s.edp.maxPInv) := by
    have nonzero := positive.ne'
    rw [c, d]
    field_simp
    ring
  rw [baseProbability_eq, if_pos ⟨gentle, beyond⟩, line]

section Gentle

variable (lined : Lined s) (gentle : s.edp.gentle) (positive : 0 < s.edp.thMin) (ordered : s.edp.thMin < s.edp.thMax)
  (linterm : 1 ≤ s.edp.maxPInv)
include lined gentle positive ordered linterm

theorem baseProbability_monotone_beyond : MonotoneOn s.baseProbability (Set.Ici s.edp.thMax) := by
  intro x beyond y beyond' le
  have room : 0 ≤ 1 - 1 / s.edp.maxPInv := sub_nonneg.mpr ((div_le_one (by linarith)).mpr linterm)
  have upper : 0 < s.edp.thMax := positive.trans ordered
  rw [baseProbability_beyond lined gentle upper beyond, baseProbability_beyond lined gentle upper beyond']
  gcongr

theorem baseProbability_thMax : s.baseProbability s.edp.thMax = 1 / s.edp.maxPInv := by
  have most : 1 / s.edp.maxPInv ≤ 1 := (div_le_one (by linarith)).mpr linterm
  rw [baseProbability_beyond lined gentle (positive.trans ordered) le_rfl, sub_self, zero_div, zero_mul, add_zero, min_eq_right most]

theorem baseProbability_nonneg_beyond {x : ℚ} (beyond : s.edp.thMax ≤ x) : 0 ≤ s.baseProbability x := by
  have first : 0 ≤ 1 / s.edp.maxPInv := by positivity
  rw [← baseProbability_thMax lined gentle positive ordered linterm] at first
  exact first.trans (baseProbability_monotone_beyond lined gentle positive ordered linterm (Set.mem_Ici.mpr le_rfl) beyond beyond)

end Gentle

section Line

variable (lined : Lined s) (ordered : s.edp.thMin < s.edp.thMax) (inside : 0 ≤ s.edv.curMaxP ∧ s.edv.curMaxP ≤ 1)
include lined ordered inside

theorem baseProbability_line {x : ℚ} (below : x < s.edp.thMax) :
    s.baseProbability x = (x - s.edp.thMin) / (s.edp.thMax - s.edp.thMin) * s.edv.curMaxP := by
  have apart : 0 < s.edp.thMax - s.edp.thMin := sub_pos.mpr ordered
  have share : (x - s.edp.thMin) / (s.edp.thMax - s.edp.thMin) ≤ 1 := (div_le_one apart).mpr (by linarith)
  have scaled := mul_le_mul_of_nonneg_right share inside.1
  rw [baseProbability_below lined ordered below, min_eq_right (by linarith)]

theorem baseProbability_monotone_below : MonotoneOn s.baseProbability (Set.Iio s.edp.thMax) := by
  intro x below y below' le
  have apart : 0 < s.edp.thMax - s.edp.thMin := sub_pos.mpr ordered
  have nonneg := inside.1
  rw [baseProbability_line lined ordered inside below, baseProbability_line lined ordered inside below']
  gcongr

theorem baseProbability_nonneg_below {x : ℚ} (below : x < s.edp.thMax) (atLeast : s.edp.thMin ≤ x) : 0 ≤ s.baseProbability x := by
  rw [baseProbability_line lined ordered inside below]
  exact mul_nonneg (div_nonneg (by linarith) (by linarith)) inside.1

/-- Below `th_max` the probability is close to `cur_max_p`. -/
theorem baseProbability_near_below {x : ℚ} (below : x < s.edp.thMax) : s.baseProbability x ≤ s.edv.curMaxP ∧
    s.edv.curMaxP - (s.edp.thMax - x) / (s.edp.thMax - s.edp.thMin) ≤ s.baseProbability x := by
  have apart : 0 < s.edp.thMax - s.edp.thMin := sub_pos.mpr ordered
  have share : (x - s.edp.thMin) / (s.edp.thMax - s.edp.thMin) = 1 - (s.edp.thMax - x) / (s.edp.thMax - s.edp.thMin) := by
    field_simp
    ring
  have gap : 0 ≤ (s.edp.thMax - x) / (s.edp.thMax - s.edp.thMin) := div_nonneg (by linarith) apart.le
  have scaled := mul_le_of_le_one_right gap inside.2
  have nonneg := mul_nonneg gap inside.1
  rw [baseProbability_line lined ordered inside below, share]
  constructor <;> linarith

end Line

/-- Beyond `th_max` the probability is close to the first `max_p`. -/
theorem baseProbability_near_beyond (lined : Lined s) (gentle : s.edp.gentle) (positive : 0 < s.edp.thMin) (ordered : s.edp.thMin < s.edp.thMax)
    (linterm : 1 ≤ s.edp.maxPInv) {x : ℚ} (beyond : s.edp.thMax ≤ x) :
    s.baseProbability x ≤ 1 / s.edp.maxPInv + (x - s.edp.thMax) / (s.edp.thMax - s.edp.thMin) := by
  have apart : 0 < s.edp.thMax - s.edp.thMin := sub_pos.mpr ordered
  have first : 0 < 1 / s.edp.maxPInv := by positivity
  have gap : 0 ≤ (x - s.edp.thMax) / s.edp.thMax := div_nonneg (by linarith) (by linarith)
  have scaled := mul_le_of_le_one_right gap (by linarith : 1 - 1 / s.edp.maxPInv ≤ 1)
  have steeper : (x - s.edp.thMax) / s.edp.thMax ≤ (x - s.edp.thMax) / (s.edp.thMax - s.edp.thMin) :=
    div_le_div_of_nonneg_left (by linarith) apart (by linarith)
  have clipped := min_le_right 1 (1 / s.edp.maxPInv + (x - s.edp.thMax) / s.edp.thMax * (1 - 1 / s.edp.maxPInv))
  rw [baseProbability_beyond lined gentle (positive.trans ordered) beyond]
  linarith

/-- The probability of a drop at the arrival number `n + 1` since the last drop, where `bytes_` is off. -/
def dropChance (p : ℚ) (wait : Bool) (countBytes size : ℕ → ℕ) (meanPktsize n : ℕ) : ℚ :=
  modifyP p (n + 1) (countBytes n) false meanPktsize wait (size n)

/-- The arrivals since the last drop at which no drop can happen. -/
def gapStart (p : ℚ) (wait : Bool) : ℕ := if wait then ⌈1 / p⌉₊ - 1 else 0

/-- The probability of each gap but the longest. -/
def gapShare (p : ℚ) (wait : Bool) : ℚ := if wait then p / (2 - ⌈1 / p⌉₊ * p) else p / (1 - p)

section Gaps

variable {p : ℚ} {wait : Bool} {countBytes size : ℕ → ℕ} {meanPktsize : ℕ}

theorem dropChance_eq (p : ℚ) (wait : Bool) (countBytes size : ℕ → ℕ) (meanPktsize n : ℕ) :
    dropChance p wait countBytes size meanPktsize n = min 1 (
      if wait then if (n + 1) * p < 1 then 0 else if (n + 1) * p < 2 then p / (2 - (n + 1) * p) else 1
      else if (n + 1) * p < 1 then p / (1 - (n + 1) * p)
      else 1) := by
  rw [← clip_eq]
  simp only [dropChance, modifyP, Bool.false_eq_true, false_and, if_false, Nat.cast_add, Nat.cast_one]

theorem dropChance_mem (pos : 0 < p) (n : ℕ) :
    0 ≤ dropChance p wait countBytes size meanPktsize n ∧ dropChance p wait countBytes size meanPktsize n ≤ 1 := by
  rw [dropChance_eq]
  refine ⟨le_min zero_le_one ?_, min_le_left _ _⟩
  split_ifs with w early before before
  · exact le_rfl
  · exact div_nonneg pos.le (by linarith)
  · exact zero_le_one
  · exact div_nonneg pos.le (by linarith)
  · exact zero_le_one

/-- Where the chance reaches 1. -/
def gapEnd (wait : Bool) : ℚ := if wait then 2 else 1

/-- The chance after the clipping at 1. -/
theorem dropChance_clipped (pos : 0 < p) (n : ℕ) : dropChance p wait countBytes size meanPktsize n =
    if wait ∧ (n + 1) * p < 1 then 0 else if (n + 2) * p ≤ gapEnd wait then p / (gapEnd wait - (n + 1) * p) else 1 := by
  have clipped : ∀ c : ℚ, (if (n + 1) * p < c then p / (c - (n + 1) * p) else 1) ⊓ 1 =
      if (n + 2) * p ≤ c then p / (c - (n + 1) * p) else 1 := by
    intro c
    by_cases before : (n + 1) * p < c
    · rw [if_pos before]
      by_cases within : (n + 2) * p ≤ c
      · rw [if_pos within, min_eq_left ((div_le_one (by linarith)).mpr (by linarith))]
      · rw [if_neg within, min_eq_right ((one_le_div (by linarith)).mpr (by linarith))]
    · rw [if_neg before, if_neg (by linarith), min_self]
  rw [dropChance_eq, min_comm]
  cases wait with
  | true =>
    by_cases early : (n + 1) * p < 1
    · rw [if_pos rfl, if_pos early, if_pos ⟨rfl, early⟩, min_eq_left zero_le_one]
    · have late : ¬(true = true ∧ (n + 1) * p < 1) := fun both => early both.2
      rw [if_pos rfl, if_neg early, if_neg late]
      exact clipped 2
  | false =>
    have late : ¬(false = true ∧ (n + 1) * p < 1) := fun both => Bool.false_ne_true both.1
    rw [if_neg Bool.false_ne_true, if_neg late]
    exact clipped 1

theorem dropChance_monotone (pos : 0 < p) : Monotone (dropChance p wait countBytes size meanPktsize) := by
  refine monotone_nat_of_le_succ fun n => ?_
  by_cases early : wait ∧ (n + 1) * p < 1
  · rw [dropChance_clipped pos n, if_pos early]
    exact (dropChance_mem pos (n + 1)).1
  by_cases within : ((n + 1 : ℕ) + 2 : ℚ) * p ≤ gapEnd wait
  · have here : (n + 2) * p ≤ gapEnd wait := by
      push_cast at within
      linarith
    have late : ¬(wait ∧ ((n + 1 : ℕ) + 1 : ℚ) * p < 1) := by
      rintro ⟨on, before⟩
      push_cast at before
      exact early ⟨on, by linarith⟩
    rw [dropChance_clipped pos, dropChance_clipped pos, if_neg early, if_neg late, if_pos here, if_pos within]
    push_cast at within ⊢
    exact div_le_div_of_nonneg_left pos.le (by linarith) (by linarith)
  · have one : dropChance p wait countBytes size meanPktsize (n + 1) = 1 := by
      have late : ¬(wait ∧ ((n + 1 : ℕ) + 1 : ℚ) * p < 1) := by
        rintro ⟨on, before⟩
        push_cast at before
        exact early ⟨on, by linarith⟩
      rw [dropChance_clipped pos, if_neg late, if_neg within]
    exact one ▸ (dropChance_mem pos n).2

/-- The drop is certain after a bounded number of arrivals. -/
theorem dropChance_certain {n : ℕ} (many : 2 ≤ (n + 1) * p) : dropChance p wait countBytes size meanPktsize n = 1 := by
  rw [dropChance_eq]
  split_ifs <;> first | exact min_self 1 | linarith

/-- With `wait_` the first arrival that may be dropped is number `⌈1 / p⌉`. -/
theorem gapStart_spec (pos : 0 < p) (lt : p < 1) : (gapStart p wait + 1) * p < gapEnd wait ∧
    (∀ k < gapStart p wait, wait ∧ (k + 1) * p < 1) ∧ ∀ i : ℕ, ¬(wait ∧ ((gapStart p wait + i : ℕ) + 1 : ℚ) * p < 1) := by
  cases wait with
  | false =>
    refine ⟨?_, fun k inside => absurd inside (Nat.not_lt_zero k), fun i both => Bool.false_ne_true both.1⟩
    simpa [gapStart, gapEnd] using lt
  | true =>
    have several : 1 < ⌈1 / p⌉₊ := Nat.lt_ceil.mpr (by rw [Nat.cast_one]; exact (one_lt_div pos).mpr lt)
    have start : gapStart p true + 1 = ⌈1 / p⌉₊ := by
      simp only [gapStart, if_true]
      omega
    have cast : (gapStart p true + 1 : ℚ) = ⌈1 / p⌉₊ := by exact_mod_cast start
    have upper : (⌈1 / p⌉₊ : ℚ) * p < 1 + p := by
      calc
        (⌈1 / p⌉₊ : ℚ) * p < (1 / p + 1) * p := by
          gcongr
          exact Nat.ceil_lt_add_one (by positivity)
        _ = 1 + p := by field_simp
    have lower : 1 ≤ (⌈1 / p⌉₊ : ℚ) * p := (div_le_iff₀ pos).mp (Nat.le_ceil _)
    refine ⟨by rw [cast]; simp only [gapEnd, if_true]; linarith, fun k inside => ⟨rfl, ?_⟩, fun i both => ?_⟩
    · have before : ((k + 1 : ℕ) : ℚ) < 1 / p := Nat.lt_ceil.mp (by omega)
      have scaled := (lt_div_iff₀ pos).mp before
      push_cast at scaled
      exact scaled
    · have later : (⌈1 / p⌉₊ : ℚ) * p ≤ ((gapStart p true + i : ℕ) + 1 : ℚ) * p := by
        rw [← cast]
        push_cast
        have more : (0 : ℚ) ≤ i * p := by positivity
        linarith
      linarith [both.2]

theorem gapShare_eq (pos : 0 < p) (lt : p < 1) : gapShare p wait = p / (gapEnd wait - (gapStart p wait + 1) * p) := by
  cases wait with
  | false => simp [gapShare, gapEnd, gapStart]
  | true =>
    have several : 1 < ⌈1 / p⌉₊ := Nat.lt_ceil.mpr (by rw [Nat.cast_one]; exact (one_lt_div pos).mpr lt)
    have cast : (gapStart p true + 1 : ℚ) = ⌈1 / p⌉₊ := by
      have start : gapStart p true + 1 = ⌈1 / p⌉₊ := by
        simp only [gapStart, if_true]
        omega
      exact_mod_cast start
    rw [cast]
    rfl

/-- The chances of `modify_p` spread the first drop evenly. -/
theorem dropChance_spread (pos : 0 < p) (lt : p < 1) :
    FirstEvent.Spread (dropChance p wait countBytes size meanPktsize) (gapStart p wait) (gapShare p wait) := by
  obtain ⟨room, early, late⟩ : (gapStart p wait + 1) * p < gapEnd wait ∧ (∀ k < gapStart p wait, wait ∧ (k + 1) * p < 1) ∧
    ∀ i : ℕ, ¬(wait ∧ ((gapStart p wait + i : ℕ) + 1 : ℚ) * p < 1) := gapStart_spec pos lt
  have rest : 0 < gapEnd wait - (gapStart p wait + 1) * p := by linarith
  have share : gapShare p wait = p / (gapEnd wait - (gapStart p wait + 1) * p) := gapShare_eq pos lt
  have scale : ∀ i : ℕ, ((i : ℚ) + 1) * gapShare p wait ≤ 1 ↔ ((gapStart p wait + i : ℕ) + 2 : ℚ) * p ≤ gapEnd wait := by
    intro i
    rw [share, ← mul_div_assoc, div_le_one rest]
    push_cast
    constructor <;> intro bound <;> linarith
  refine ⟨by rw [share]; exact div_pos pos rest, fun k inside => ?_, fun i left => ?_, fun i done => ?_⟩
  · rw [dropChance_clipped pos, if_pos (early k inside)]
  · have within := (scale i).mp left
    rw [dropChance_clipped pos, if_neg (late i), if_pos within, share]
    push_cast at within ⊢
    have before : 0 < gapEnd wait - (gapStart p wait + i + 1) * p := by linarith
    have same : 1 - i * (p / (gapEnd wait - (gapStart p wait + 1) * p)) =
        (gapEnd wait - (gapStart p wait + i + 1) * p) / (gapEnd wait - (gapStart p wait + 1) * p) := by
      rw [eq_div_iff rest.ne', sub_mul, one_mul, mul_assoc, div_mul_cancel₀ p rest.ne']
      ring
    rw [same, div_div_div_cancel_right₀ rest.ne']
  · rw [dropChance_clipped pos, if_neg (late i), if_neg fun within => not_le.mpr done ((scale i).mpr within)]

/-- Every gap between drops has the same probability but the longest, which has what is left, and the drop is certain after
`2 / p` arrivals. All gaps that can occur have the same probability exactly when nothing is left. -/
theorem dropChance_gaps (pos : 0 < p) (lt : p < 1) (wait : Bool) (countBytes size : ℕ → ℕ) (meanPktsize : ℕ) :
    (∀ n, 0 ≤ dropChance p wait countBytes size meanPktsize n ∧ dropChance p wait countBytes size meanPktsize n ≤ 1) ∧
      Monotone (dropChance p wait countBytes size meanPktsize) ∧
      (∀ n : ℕ, 2 ≤ (n + 1) * p → dropChance p wait countBytes size meanPktsize n = 1) ∧
      (∀ n < gapStart p wait, FirstEvent.firstAt (dropChance p wait countBytes size meanPktsize) n = 0) ∧
      (∀ i : ℕ, FirstEvent.firstAt (dropChance p wait countBytes size meanPktsize) (gapStart p wait + i) =
        max (min (gapShare p wait) (1 - i * gapShare p wait)) 0) ∧
      ((∀ n m, FirstEvent.firstAt (dropChance p wait countBytes size meanPktsize) n ≠ 0 →
        FirstEvent.firstAt (dropChance p wait countBytes size meanPktsize) m ≠ 0 →
        FirstEvent.firstAt (dropChance p wait countBytes size meanPktsize) n =
          FirstEvent.firstAt (dropChance p wait countBytes size meanPktsize) m) ↔
        1 ≤ gapShare p wait ∨ ∃ k : ℕ, k * gapShare p wait = 1) := by
  have spread : FirstEvent.Spread (dropChance p wait countBytes size meanPktsize) (gapStart p wait) (gapShare p wait) :=
    dropChance_spread pos lt
  exact ⟨dropChance_mem pos, dropChance_monotone pos, fun n many => dropChance_certain many,
    fun n early => spread.firstAt_before early, spread.firstAt_eq, spread.even_iff⟩

theorem dropChance_gaps_sample : Monotone (dropChance (1 / 10) true (fun _ => 0) (fun _ => 1000) 500) :=
  (dropChance_gaps (by norm_num) (by norm_num) true (fun _ => 0) (fun _ => 1000) 500).2.1

/-- With a base probability of 2/5, two gaps can occur, and one is twice as likely as the other. -/
theorem dropChance_uneven :
    FirstEvent.firstAt (dropChance (2 / 5) false (fun _ => 0) (fun _ => 1000) 500) 0 = 2 / 3 ∧
      FirstEvent.firstAt (dropChance (2 / 5) false (fun _ => 0) (fun _ => 1000) 500) 1 = 1 / 3 := by
  have first : dropChance (2 / 5) false (fun _ => 0) (fun _ => 1000) 500 0 = 2 / 3 := by decide +kernel
  have second : dropChance (2 / 5) false (fun _ => 0) (fun _ => 1000) 500 1 = 1 := by decide +kernel
  rw [FirstEvent.firstAt, FirstEvent.firstAt, FirstEvent.survival_succ, first, second]
  norm_num [FirstEvent.survival]

end Gaps

end REDQueue

end Ns2
