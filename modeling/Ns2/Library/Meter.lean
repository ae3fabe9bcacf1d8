import Mathlib.Algebra.Order.Field.Basic
import Mathlib.Tactic.Linarith
import Mathlib.Tactic.Ring

universe u v w

/-! Accounts that fill up at a rate and pay for what passes. -/

/-- A component that items pass at times that do not fall. -/
structure Meter (σ : Type u) (π : Type v) (K : Type w) where
  step : σ → π → σ
  arrival : π → K

namespace Meter

variable {σ : Type u} {π : Type v} {K : Type w} [Field K] [LinearOrder K]

/-- The items come in the order of their times, from `now` on. -/
def Ordered (m : Meter σ π K) : K → List π → Prop
  | _, [] => True
  | now, p :: ps => now ≤ m.arrival p ∧ m.Ordered (m.arrival p) ps

def after (m : Meter σ π K) (s : σ) (ps : List π) : σ := ps.foldl m.step s

/-- What the items that come from `a` to `b` cost. -/
def charged (m : Meter σ π K) (cost : σ → π → K) (a b : K) : σ → List π → K
  | _, [] => 0
  | s, p :: ps => (if a ≤ m.arrival p ∧ m.arrival p ≤ b then cost s p else 0) + m.charged cost a b (m.step s p) ps

/-- The states with `I` know the time `last` up to which they are filled, and each item costs no more than what the level of the account
has gained at the rate and then lost; there is never more in the account than `cap`. -/
structure Pays (m : Meter σ π K) (I : σ → Prop) (last level : σ → K) (cost : σ → π → K) (rate cap : K) : Prop where
  kept : ∀ s p, I s → last s ≤ m.arrival p → I (m.step s p)
  filled : ∀ s p, last (m.step s p) = m.arrival p
  nonneg : ∀ s, I s → 0 ≤ level s
  full : ∀ s, I s → level s ≤ cap
  gained : ∀ s p, I s → last s ≤ m.arrival p → level (m.step s p) + cost s p ≤ level s + rate * (m.arrival p - last s)
  capped : ∀ s p, I s → last s ≤ m.arrival p → level (m.step s p) + cost s p ≤ cap

variable {m : Meter σ π K} {I : σ → Prop} {last level : σ → K} {cost : σ → π → K} {rate cap a b : K} {s : σ} {ps : List π}

theorem Pays.after (pays : m.Pays I last level cost rate cap) (start : I s) (ordered : m.Ordered (last s) ps) : I (m.after s ps) := by
  induction ps generalizing s with
  | nil => exact start
  | cons p ps ih =>
    obtain ⟨later, rest⟩ := ordered
    refine ih (pays.kept s p start later) ?_
    rwa [pays.filled s p]

/-- Behind the end of the window nothing is charged. -/
theorem charged_beyond {now : K} (ordered : m.Ordered now ps) (beyond : b < now) : m.charged cost a b s ps = 0 := by
  induction ps generalizing s now with
  | nil => rfl
  | cons p ps ih =>
    obtain ⟨later, rest⟩ := ordered
    have outside : ¬(a ≤ m.arrival p ∧ m.arrival p ≤ b) := fun inside => absurd (beyond.trans_le later) (not_lt.mpr inside.2)
    rw [charged, if_neg outside, ih rest (beyond.trans_le later), zero_add]

variable [IsStrictOrderedRing K]

/-- From a state within the window on, no more is charged than what is in the account and what it gains to the end of the window. -/
theorem Pays.charged_within (pays : m.Pays I last level cost rate cap) (rated : 0 ≤ rate) (start : I s) (ordered : m.Ordered (last s) ps)
    (entered : a ≤ last s) (within : last s ≤ b) : m.charged cost a b s ps ≤ level s + rate * (b - last s) := by
  induction ps generalizing s with
  | nil => exact add_nonneg (pays.nonneg s start) (mul_nonneg rated (sub_nonneg.mpr within))
  | cons p ps ih =>
    obtain ⟨later, rest⟩ := ordered
    rw [charged]
    by_cases ended : m.arrival p ≤ b
    · have gained := pays.gained s p start later
      have known := pays.filled s p
      have onward := ih (pays.kept s p start later) (known ▸ rest) (known ▸ entered.trans later) (known ▸ ended)
      have total : rate * (b - last s) = rate * (m.arrival p - last s) + rate * (b - m.arrival p) := by ring
      rw [known] at onward
      rw [if_pos ⟨entered.trans later, ended⟩]
      linarith
    · rw [if_neg fun inside => ended inside.2, charged_beyond rest (not_le.mp ended), zero_add]
      exact add_nonneg (pays.nonneg s start) (mul_nonneg rated (sub_nonneg.mpr within))

/-- In no window is more charged than what the account can hold and what it gains in the window. -/
theorem Pays.charged_le (pays : m.Pays I last level cost rate cap) (rated : 0 ≤ rate) (start : I s) (ordered : m.Ordered (last s) ps)
    (window : a ≤ b) : m.charged cost a b s ps ≤ cap + rate * (b - a) := by
  induction ps generalizing s with
  | nil => exact add_nonneg ((pays.nonneg s start).trans (pays.full s start)) (mul_nonneg rated (sub_nonneg.mpr window))
  | cons p ps ih =>
    obtain ⟨later, rest⟩ := ordered
    have kept := pays.kept s p start later
    have known := pays.filled s p
    rw [charged]
    by_cases inside : a ≤ m.arrival p ∧ m.arrival p ≤ b
    · -- the first item of the window finds no more than `cap`
      have capped := pays.capped s p start later
      have onward := pays.charged_within rated kept (known ▸ rest) (known ▸ inside.1) (known ▸ inside.2)
      have total : rate * (b - a) = rate * (m.arrival p - a) + rate * (b - m.arrival p) := by ring
      have waited : 0 ≤ rate * (m.arrival p - a) := mul_nonneg rated (sub_nonneg.mpr inside.1)
      rw [known] at onward
      rw [if_pos inside]
      linarith
    · rw [if_neg inside, zero_add]
      exact ih kept (known ▸ rest)

end Meter
