import Mathlib.Data.Int.Bitwise
import Mathlib.Tactic.Common

namespace SignedWord

variable {w : ℕ} {x y : ℤ}

/-- What is left of `x` in a signed word of `w` bits. -/
def wrap (w : ℕ) (x : ℤ) : ℤ := x.bmod (2 ^ w)

theorem wrap_range (positive : 0 < w) (x : ℤ) : -(2 ^ (w - 1) : ℤ) ≤ wrap w x ∧ wrap w x < 2 ^ (w - 1) := by
  obtain ⟨n, rfl⟩ : ∃ n, w = n + 1 := ⟨w - 1, by omega⟩
  have size : (2 ^ (n + 1) : ℕ) = 2 * 2 ^ n := by rw [pow_succ, mul_comm]
  have lower := Int.le_bmod (x := x) (Nat.two_pow_pos (n + 1))
  have upper := Int.bmod_lt (x := x) (Nat.two_pow_pos (n + 1))
  have cast : ((2 ^ n : ℕ) : ℤ) = 2 ^ n := by push_cast; rfl
  rw [size] at lower upper
  rw [wrap, Nat.add_sub_cancel, size, ← cast]
  push_cast at lower upper ⊢
  omega

theorem wrap_of_range (positive : 0 < w) (lower : -(2 ^ (w - 1) : ℤ) ≤ x) (upper : x < 2 ^ (w - 1)) : wrap w x = x := by
  obtain ⟨n, rfl⟩ : ∃ n, w = n + 1 := ⟨w - 1, by omega⟩
  have size : (2 ^ (n + 1) : ℕ) = 2 * 2 ^ n := by rw [pow_succ, mul_comm]
  rw [Nat.add_sub_cancel] at lower upper
  refine Int.bmod_eq_of_le ?_ ?_
  · rw [size]
    push_cast
    omega
  · rw [size]
    push_cast
    omega

/-- Only the last result of a sum has to fit. -/
theorem wrap_add_wrap (w : ℕ) (x y : ℤ) : wrap w (wrap w x + y) = wrap w (x + y) := Int.bmod_add_bmod

theorem complement_eq (x : ℤ) : ~~~x = -x - 1 := by
  cases x with
  | ofNat n =>
    change Int.negSucc n = -(n : ℤ) - 1
    omega
  | negSucc n =>
    change (n : ℤ) = -Int.negSucc n - 1
    omega

end SignedWord
