import Mathlib.Order.Lattice
import Mathlib.Tactic.Common
import Mathlib.Data.Int.Notation
import Mathlib.Order.Defs.LinearOrder

universe u v

/-- An integer computation with the largest absolute value of the numbers that go into its result, and of
those that it computes and throws away. -/
structure Tally (α : Type u) where
  value : α
  peak : ℕ
  discarded : ℕ
deriving DecidableEq

namespace Tally

instance : Monad Tally where
  pure a := ⟨a, 0, 0⟩
  bind t f := ⟨(f t.value).value, max t.peak (f t.value).peak, max t.discarded (f t.value).discarded⟩

/-- The number is used. -/
def use (n : ℤ) : Tally ℤ := ⟨n, n.natAbs, 0⟩

/-- The number is thrown away. -/
def discard (n : ℤ) : Tally Unit := ⟨(), 0, n.natAbs⟩

variable {α : Type u} {β : Type u} {t : Tally α} {f : α → Tally β} {bound : ℕ}

@[simp]
theorem value_pure (a : α) : (pure a : Tally α).value = a := rfl

@[simp]
theorem peak_pure (a : α) : (pure a : Tally α).peak = 0 := rfl

@[simp]
theorem value_bind (t : Tally α) (f : α → Tally β) : (t >>= f).value = (f t.value).value := rfl

@[simp]
theorem peak_bind (t : Tally α) (f : α → Tally β) : (t >>= f).peak = max t.peak (f t.value).peak := rfl

@[simp]
theorem value_use (n : ℤ) : (use n).value = n := rfl

@[simp]
theorem peak_use (n : ℤ) : (use n).peak = n.natAbs := rfl

@[simp]
theorem peak_discard (n : ℤ) : (discard n).peak = 0 := rfl

theorem pure_lt (positive : 0 < bound) (a : α) : (pure a : Tally α).peak < bound := positive

theorem bind_lt (first : t.peak < bound) (second : (f t.value).peak < bound) : (t >>= f).peak < bound := max_lt first second

end Tally
