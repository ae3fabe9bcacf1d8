import Mathlib.Algebra.BigOperators.Group.Finset.Basic
import Mathlib.Algebra.Order.Floor.Semiring
import Mathlib.Algebra.Order.Field.Basic
import Mathlib.Tactic.FieldSimp
import Mathlib.Tactic.Linarith
import Mathlib.Tactic.Ring

universe u

namespace FirstEvent

section Semiring

variable {α : Type u} [CommRing α]

/-- The probability that the first `n` trials pass without the event, whose chance in trial `k` is `h k`. -/
def survival (h : ℕ → α) (n : ℕ) : α := ∏ k ∈ Finset.range n, (1 - h k)

/-- The probability that the event comes first in trial `n`. -/
def firstAt (h : ℕ → α) (n : ℕ) : α := survival h n * h n

theorem survival_succ (h : ℕ → α) (n : ℕ) : survival h (n + 1) = survival h n * (1 - h n) := Finset.prod_range_succ _ n

end Semiring

variable {α : Type u} [Field α] [LinearOrder α] {h : ℕ → α} {start : ℕ} {q : α}

/-- Chances that spread the first event over the trials from `start` on, with `q` for each while it lasts. -/
structure Spread (h : ℕ → α) (start : ℕ) (q : α) : Prop where
  positive : 0 < q
  before : ∀ k < start, h k = 0
  within : ∀ i : ℕ, (i + 1) * q ≤ 1 → h (start + i) = q / (1 - i * q)
  final : ∀ i : ℕ, 1 < (i + 1) * q → h (start + i) = 1

namespace Spread

theorem survival_start (spread : Spread h start q) : survival h start = 1 := by
  refine Finset.prod_eq_one fun k inside => ?_
  rw [spread.before k (Finset.mem_range.mp inside), sub_zero]

theorem firstAt_before (spread : Spread h start q) {n : ℕ} (early : n < start) : firstAt h n = 0 := by
  rw [firstAt, spread.before n early, mul_zero]

variable [IsStrictOrderedRing α]

theorem survival_eq (spread : Spread h start q) (i : ℕ) : survival h (start + i) = max (1 - i * q) 0 := by
  induction i with
  | zero => rw [Nat.add_zero, spread.survival_start, Nat.cast_zero, zero_mul, sub_zero, max_eq_left zero_le_one]
  | succ i ih =>
    rw [← Nat.add_assoc, survival_succ, ih, Nat.cast_succ]
    rcases le_or_gt ((i + 1) * q) 1 with left | done
    · have rest : 0 < 1 - i * q := by linarith only [spread.positive, left]
      rw [spread.within i left, max_eq_left rest.le, max_eq_left (by linarith only [left])]
      field_simp
      ring
    · rw [spread.final i done, sub_self, mul_zero, max_eq_right (by linarith only [done])]

/-- The first event has probability `q` in each trial, but for what is left in the last. -/
theorem firstAt_eq (spread : Spread h start q) (i : ℕ) : firstAt h (start + i) = max (min q (1 - i * q)) 0 := by
  rw [firstAt, spread.survival_eq]
  rcases le_or_gt ((i + 1) * q) 1 with left | done
  · have rest : 0 < 1 - i * q := by linarith only [spread.positive, left]
    rw [spread.within i left, max_eq_left rest.le, mul_div_cancel₀ q rest.ne', min_eq_left (by linarith only [left]), max_eq_left spread.positive.le]
  · rw [spread.final i done, mul_one, min_eq_right (by linarith only [done])]

/-- All probabilities that are not zero are the same exactly when nothing is left in the last trial. -/
theorem even_iff [FloorSemiring α] (spread : Spread h start q) :
    (∀ n m, firstAt h n ≠ 0 → firstAt h m ≠ 0 → firstAt h n = firstAt h m) ↔ 1 ≤ q ∨ ∃ k : ℕ, k * q = 1 := by
  have positive := spread.positive
  constructor
  · intro even
    refine or_iff_not_imp_left.mpr fun small => ?_
    have below := not_le.mp small
    have lower : (⌊1 / q⌋₊ : α) * q ≤ 1 := (le_div_iff₀ positive).mp (Nat.floor_le (by positivity))
    have upper : 1 < (⌊1 / q⌋₊ + 1 : α) * q := (div_lt_iff₀ positive).mp (Nat.lt_floor_add_one _)
    refine ⟨⌊1 / q⌋₊, lower.antisymm (not_lt.mp fun left => ?_)⟩
    have first : firstAt h (start + 0) = q := by
      rw [spread.firstAt_eq, Nat.cast_zero, zero_mul, sub_zero, min_eq_left below.le, max_eq_left positive.le]
    have last : firstAt h (start + ⌊1 / q⌋₊) = 1 - ⌊1 / q⌋₊ * q := by
      rw [spread.firstAt_eq, min_eq_right (by linarith only [upper]), max_eq_left (by linarith only [left])]
    have same := even _ _ (by rw [first]; exact positive.ne') (by rw [last]; linarith only [left])
    rw [first, last] at same
    linarith only [same, upper]
  · intro condition
    have value : ∀ n, firstAt h n ≠ 0 → firstAt h n = min q 1 := by
      intro n nonzero
      obtain ⟨i, rfl⟩ : ∃ i, n = start + i := by
        refine Nat.exists_eq_add_of_le (not_lt.mp fun early => nonzero (spread.firstAt_before early))
      rw [spread.firstAt_eq] at nonzero ⊢
      have left : i * q < 1 := by
        by_contra none
        exact nonzero (max_eq_right ((min_le_right _ _).trans (by linarith only [none])))
      rcases condition with large | ⟨k, exact⟩
      · have zero : i = 0 := by
          by_contra more
          have least : (1 : α) ≤ i := by exact_mod_cast Nat.one_le_iff_ne_zero.mpr more
          have scaled := le_mul_of_one_le_left positive.le least
          linarith only [scaled, large, left]
        subst zero
        rw [Nat.cast_zero, zero_mul, sub_zero, max_eq_left (le_min positive.le zero_le_one)]
      · have before : i < k := by
          have compare : (i : α) * q < k * q := by rw [exact]; exact left
          exact_mod_cast lt_of_mul_lt_mul_right compare positive.le
        have next : ((i : α) + 1) * q ≤ k * q := mul_le_mul_of_nonneg_right (by exact_mod_cast before) positive.le
        have atMost : q ≤ k * q := le_mul_of_one_le_left positive.le (by exact_mod_cast (by omega : 1 ≤ k))
        rw [exact] at next atMost
        rw [min_eq_left (by linarith only [next]), min_eq_left atMost, max_eq_left positive.le]
    intro n m nonzero other
    rw [value n nonzero, value m other]

end Spread

end FirstEvent
