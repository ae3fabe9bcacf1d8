import Mathlib.Algebra.Order.Ring.Defs
import Mathlib.Order.Interval.Set.Defs
import Mathlib.Tactic.Linarith

universe u

/-- One adjustment of a controlled value. -/
inductive Adjustment (α : Type u)
  | keep
  | scale (factor : α)
  | add (amount : α)

namespace Adjustment

variable {α : Type u} [CommRing α] [LinearOrder α] [IsStrictOrderedRing α] {low high x : α}

def apply : Adjustment α → α → α
  | keep, x => x
  | scale factor, x => x * factor
  | add amount, x => x + amount

/-- A scaling goes down and an addition goes up. -/
def Sane : Adjustment α → Prop
  | keep => True
  | scale factor => 0 ≤ factor ∧ factor ≤ 1
  | add amount => 0 ≤ amount

/-- The adjustment has room towards the bound that it moves to. -/
def Fits (low high x : α) : Adjustment α → Prop
  | keep => True
  | scale factor => low ≤ x * factor
  | add amount => amount ≤ high - x

instance [DecidableLE α] (low high x : α) (a : Adjustment α) : Decidable (a.Fits low high x) :=
  match a with
  | keep => isTrue trivial
  | scale factor => inferInstanceAs (Decidable (low ≤ x * factor))
  | add amount => inferInstanceAs (Decidable (amount ≤ high - x))

theorem apply_mem_iff {a : Adjustment α} (sane : a.Sane) (nonneg : 0 ≤ low) (inside : x ∈ Set.Icc low high) :
    a.apply x ∈ Set.Icc low high ↔ a.Fits low high x := by
  obtain ⟨above, below⟩ := inside
  cases a with
  | keep => exact ⟨fun _ => trivial, fun _ => ⟨above, below⟩⟩
  | scale factor =>
    have shrinks : x * factor ≤ x := mul_le_of_le_one_right (nonneg.trans above) sane.2
    exact ⟨fun mem => mem.1, fun fits => ⟨fits, shrinks.trans below⟩⟩
  | add amount =>
    have grows : x ≤ x + amount := le_add_of_nonneg_right sane
    exact ⟨fun mem => le_sub_iff_add_le'.mpr mem.2, fun fits => ⟨above.trans grows, le_sub_iff_add_le'.mp fits⟩⟩

/-- A scaling that starts above the lower bound, and an addition that starts
below the upper bound, overshoot by one step at most. -/
theorem apply_mem_of_guarded {a : Adjustment α} {factor amount : α} (sane : a.Sane) (nonneg : 0 ≤ low) (scaled : ∀ b, a = scale b → factor ≤ b ∧ low < x)
    (added : ∀ b, a = add b → b ≤ amount ∧ x < high)
    (inside : x ∈ Set.Icc (low * factor) (high + amount)) (positive : 0 ≤ x) :
    a.apply x ∈ Set.Icc (low * factor) (high + amount) := by
  obtain ⟨above, below⟩ := inside
  cases a with
  | keep => exact ⟨above, below⟩
  | scale b =>
    obtain ⟨enough, guarded⟩ := scaled b rfl
    have shrinks : x * b ≤ x := mul_le_of_le_one_right positive sane.2
    have bounded : low * factor ≤ x * b :=
      (mul_le_mul_of_nonneg_left enough nonneg).trans (mul_le_mul_of_nonneg_right guarded.le sane.1)
    exact ⟨bounded, shrinks.trans below⟩
  | add b =>
    obtain ⟨enough, guarded⟩ := added b rfl
    have grows : x ≤ x + b := le_add_of_nonneg_right sane
    exact ⟨above.trans grows, add_le_add guarded.le enough⟩

end Adjustment
