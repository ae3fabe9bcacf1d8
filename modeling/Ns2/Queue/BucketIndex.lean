import Mathlib.Tactic.NormNum
import Mathlib.Tactic.Ring
import Ns2.Queue.DRR
import Ns2.Queue.SFQ

namespace Ns2

open SignedWord (wrap wrap_range wrap_of_range wrap_add_wrap complement_eq)

/-- What both hashes make of their argument. -/
def spread (k : ℤ) : ℤ := k + (k >>> (8 : ℕ)) + ~~~(k >>> (4 : ℕ))

theorem spread_eq (k : ℤ) : spread k = k + k / 256 - k / 16 - 1 := by
  rw [spread, complement_eq, Int.shiftRight_eq_div_pow, Int.shiftRight_eq_div_pow]
  norm_num
  ring

/-- The spread of a word is a word, of the sign of `k - 1`. -/
theorem spread_range {k : ℤ} (lower : -(2 ^ 31) ≤ k) (upper : k < 2 ^ 31) :
    -(2 ^ 31) ≤ spread k ∧ spread k < 2 ^ 31 ∧ (0 < k → 0 ≤ spread k) ∧ (k ≤ 0 → spread k < 0) := by
  rw [spread_eq]
  norm_num at lower upper ⊢
  omega

/-- The first sum may wrap, but the result does not. -/
theorem wrap_spread {k : ℤ} (lower : -(2 ^ 31) ≤ k) (upper : k < 2 ^ 31) :
    wrap 32 (wrap 32 (k + (k >>> (8 : ℕ))) + ~~~(k >>> (4 : ℕ))) = spread k := by
  obtain ⟨least, most, _, _⟩ := spread_range lower upper
  rw [wrap_add_wrap, ← spread]
  exact wrap_of_range (by decide) least most

/-- The remainder has the sign of its dividend, so it is an index exactly when that is not
negative, or nothing is left over. -/
theorem tmod_inRange_iff {x n : ℤ} (positive : 0 < n) : 0 ≤ x.tmod n ∧ x.tmod n < n ↔ 0 ≤ x ∨ n ∣ x := by
  have below := Int.tmod_lt_of_pos x positive
  rw [and_iff_left below, Int.dvd_iff_tmod_eq_zero]
  rcases le_or_gt 0 x with nonneg | negative
  · exact iff_of_true (Int.tmod_nonneg n nonneg) (Or.inl nonneg)
  · have opposite := Int.tmod_nonneg n (show 0 ≤ -x by omega)
    rw [Int.neg_tmod] at opposite
    have least : x.tmod n ≤ 0 := by omega
    constructor
    · intro above
      exact Or.inr (le_antisymm least above)
    · rintro (above | none)
      · omega
      · exact none.ge

namespace SFQ

/-- `hash` in 32-bit words. -/
def hash32 (saddr daddr : ℤ) : ℤ :=
  let k := wrap 32 (saddr + daddr)
  (wrap 32 (wrap 32 (k + (k >>> (8 : ℕ))) + ~~~(k >>> (4 : ℕ)))).tmod (2 <<< 19 - 1)

def index32 (buckets saddr daddr : ℤ) : ℤ := (hash32 saddr daddr).tmod buckets

theorem hash32_eq (saddr daddr : ℤ) : hash32 saddr daddr = (spread (wrap 32 (saddr + daddr))).tmod (2 ^ 20 - 1) := by
  obtain ⟨lower, upper⟩ := wrap_range (w := 32) (by decide) (saddr + daddr)
  have whole := wrap_spread lower upper
  rw [hash32, whole]
  rfl

/-- How far below 0 the sum of two addresses wraps to. -/
def shortfall (sum : ℤ) : ℤ := if sum < 2 ^ 31 then 0 else 2 ^ 32 - sum

/-- What the hash takes from a sum that is that far below 0. -/
def deficit (short : ℤ) : ℤ := (short + (short + 255) / 256 - (short + 15) / 16 + 1) % (2 ^ 20 - 1)

theorem hash32_of_nonpos {saddr daddr : ℤ} (first : 0 ≤ saddr ∧ saddr < 2 ^ 31) (second : 0 ≤ daddr ∧ daddr < 2 ^ 31)
    (outside : ¬(0 < saddr + daddr ∧ saddr + daddr < 2 ^ 31)) :
    hash32 saddr daddr = -deficit (shortfall (saddr + daddr)) := by
  have wrapped : wrap 32 (saddr + daddr) = -shortfall (saddr + daddr) := by
    unfold shortfall
    split_ifs with small
    · have zero : saddr + daddr = 0 := by omega
      rw [zero]
      rfl
    · have below : wrap 32 (saddr + daddr) = wrap 32 (saddr + daddr - 2 ^ 32) :=
        (Int.sub_bmod_right (saddr + daddr) (2 ^ 32)).symm
      rw [below, wrap_of_range (by decide) (by norm_num; omega) (by norm_num; omega)]
      ring
  have least : 0 ≤ shortfall (saddr + daddr) := by
    unfold shortfall
    split_ifs <;> omega
  have opposite : spread (-shortfall (saddr + daddr)) =
      -(shortfall (saddr + daddr) + (shortfall (saddr + daddr) + 255) / 256 - (shortfall (saddr + daddr) + 15) / 16 + 1) := by
    rw [spread_eq]
    omega
  have nonneg : 0 ≤ shortfall (saddr + daddr) + (shortfall (saddr + daddr) + 255) / 256 - (shortfall (saddr + daddr) + 15) / 16 + 1 := by
    omega
  rw [hash32_eq, wrapped, opposite, Int.neg_tmod, Int.tmod_eq_emod_of_nonneg nonneg, deficit]

end SFQ

namespace DRR

theorem hash_range {saddr : ℤ} (mask : Bool) (lower : 0 ≤ saddr) (upper : saddr < 2 ^ 31) : 0 ≤ hash mask saddr := by
  obtain ⟨i, bounds, same⟩ : ∃ i, (0 ≤ i ∧ i < 2 ^ 31) ∧ hash mask saddr = (spread i).tmod (2 ^ 24 - 1) + 1 := by
    obtain ⟨n, rfl⟩ := Int.eq_ofNat_of_zero_le lower
    have masked : 0 ≤ Int.land n 0xfff0 ∧ Int.land n 0xfff0 < 2 ^ 31 := by
      have small : n &&& 0xfff0 ≤ n := Nat.and_le_left
      change 0 ≤ ((n &&& 0xfff0 : ℕ) : ℤ) ∧ ((n &&& 0xfff0 : ℕ) : ℤ) < 2 ^ 31
      omega
    refine ⟨if mask then Int.land n 0xfff0 else n, ?_, ?_⟩
    · split_ifs
      · exact masked
      · exact ⟨lower, upper⟩
    · unfold hash
      dsimp only
      rw [wrap_spread]
      · rfl
      · split_ifs <;> omega
      · split_ifs <;> omega
  have least : -1 ≤ spread i := by
    rw [spread_eq]
    omega
  rw [same]
  rcases eq_or_lt_of_le least with minus | above
  · rw [← minus]
    decide
  · have positive := Int.tmod_nonneg (2 ^ 24 - 1) (show 0 ≤ spread i by omega)
    omega

theorem index_inRange {saddr buckets : ℤ} (mask : Bool) (lower : 0 ≤ saddr) (upper : saddr < 2 ^ 31) (positive : 0 < buckets) :
    0 ≤ index mask buckets saddr ∧ index mask buckets saddr < buckets :=
  (tmod_inRange_iff positive).mpr (Or.inl (hash_range mask lower upper))

end DRR

/-- Both queues find a bucket of theirs exactly when the sum of the addresses is positive and fits an `int`,
or the buckets divide what the hash of a sum that does not is below 0. -/
theorem index_inRange_iff {saddr daddr buckets : ℤ} (mask : Bool) (source : 0 ≤ saddr ∧ saddr < 2 ^ 31)
    (destination : 0 ≤ daddr ∧ daddr < 2 ^ 31) (positive : 1 ≤ buckets) :
    ((0 ≤ SFQ.index32 buckets saddr daddr ∧ SFQ.index32 buckets saddr daddr < buckets) ∧
      0 ≤ DRR.index mask buckets saddr ∧ DRR.index mask buckets saddr < buckets) ↔
    (0 < saddr + daddr ∧ saddr + daddr < 2 ^ 31) ∨ buckets ∣ SFQ.deficit (SFQ.shortfall (saddr + daddr)) := by
  rw [and_iff_left (DRR.index_inRange mask source.1 source.2 positive), SFQ.index32, tmod_inRange_iff positive]
  by_cases inside : 0 < saddr + daddr ∧ saddr + daddr < 2 ^ 31
  · have wrapped : wrap 32 (saddr + daddr) = saddr + daddr := wrap_of_range (w := 32) (by decide) (by norm_num; omega) inside.2
    obtain ⟨_, _, nonneg, _⟩ := spread_range (k := saddr + daddr) (by omega) inside.2
    refine iff_of_true (Or.inl ?_) (Or.inl inside)
    rw [SFQ.hash32_eq, wrapped]
    exact Int.tmod_nonneg _ (nonneg inside.1)
  · rw [SFQ.hash32_of_nonpos source destination inside, Int.dvd_neg, or_iff_right inside]
    refine or_iff_right_of_imp fun above => ?_
    have least : 0 ≤ SFQ.deficit (SFQ.shortfall (saddr + daddr)) := Int.emod_nonneg _ (by decide)
    rw [show SFQ.deficit (SFQ.shortfall (saddr + daddr)) = 0 by omega]
    exact dvd_zero buckets

theorem index_inRange_iff_sample : (0 ≤ SFQ.index32 16 5 7 ∧ SFQ.index32 16 5 7 < 16) ∧
    0 ≤ DRR.index true 16 5 ∧ DRR.index true 16 5 < 16 :=
  (index_inRange_iff true (by decide) (by decide) (by decide)).mpr (Or.inl (by decide))

/-- Two addresses of 0, and two whose sum does not fit an `int`. -/
theorem index_below_bucket : SFQ.index32 16 0 0 = -1 ∧ SFQ.index32 16 1073741824 1073741829 < 0 := by
  decide

end Ns2
