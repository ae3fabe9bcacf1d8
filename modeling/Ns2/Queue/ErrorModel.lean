import Mathlib.Algebra.Order.Field.Rat
import Mathlib.Data.Nat.Choose.Sum
import Mathlib.Algebra.Order.BigOperators.Group.Finset

namespace Ns2

/-- The product of the quotients, each rounded as an `int`. -/
def comb (n k : ℕ) : ℚ := (List.range k).foldl (fun sum (i : ℕ) => sum * (((n : ℤ) - i).tdiv (i + 1) : ℤ)) 1

/-- The arrays are `none` before `CorruptBit` computes them. -/
structure ErrorModel where
  rate : ℚ
  fecStrength : ℕ
  firstTime : Bool
  cntrlpktsize : ℕ
  datapktsize : ℕ
  cntrlprb : Option (ℕ → ℚ)
  dataprb : Option (ℕ → ℚ)

namespace ErrorModel

def term (rate : ℚ) (size i : ℕ) : ℚ := comb size i * rate ^ i * (1 - rate) ^ ((size : ℤ) - i)

def accumulate (dptr : ℕ → ℚ) (i : ℕ) : ℕ → ℚ := Function.update dptr (i + 1) (dptr (i + 1) + dptr i)

/-- An array of `fecStrength + 2` places, allocated by `calloc`. -/
def computeBitErrProb (rate : ℚ) (fecStrength size : ℕ) : ℕ → ℚ :=
  let dptr := fun i => if i < fecStrength + 1 then term rate size i else 0
  Function.update ((List.range fecStrength).foldl accumulate dptr) (fecStrength + 1) 1

/-- What `CorruptBit` does first. -/
def precompute (s : ErrorModel) : ErrorModel :=
  if s.firstTime ∧ s.fecStrength ≠ 0 then
    { s with
      cntrlprb := some (computeBitErrProb s.rate s.fecStrength s.cntrlpktsize),
      dataprb := some (computeBitErrProb s.rate s.fecStrength s.datapktsize),
      firstTime := false }
  else s

/-- `u` is the value of `ranvar_` or of `Random::uniform`. -/
def corruptBit (s : ErrorModel) (u : ℚ) (size : ℕ) : Option (ErrorModel × ℕ) :=
  let s := s.precompute
  (if size ≥ s.datapktsize then s.dataprb else s.cntrlprb).map fun dptr =>
    (s, ((List.range (s.fecStrength + 2)).find? fun i => dptr i > u).getD (s.fecStrength + 2))

variable {n k f i j : ℕ} {r u : ℚ}

theorem comb_succ (n k : ℕ) : comb n (k + 1) = comb n k * (((n : ℤ) - k).tdiv (k + 1) : ℤ) := by
  rw [comb, List.range_succ, List.foldl_append]
  rfl

/-- Up to the size, the quotients are those of natural numbers. The product is right exactly when none is rounded. -/
theorem comb_natCast (bound : k ≤ n) : ∃ c : ℕ, comb n k = c ∧ c ≤ n.choose k ∧ (c = n.choose k ↔ ∀ i < k, i + 1 ∣ n + 1) := by
  induction k with
  | zero =>
    have one := Nat.choose_zero_right n
    exact ⟨1, Nat.cast_one.symm, one.ge, iff_of_true one.symm fun i below => absurd below (Nat.not_lt_zero i)⟩
  | succ k ih =>
    obtain ⟨c, value, below, exact⟩ := ih (by omega)
    let q := (n - k) / (k + 1)
    have quotient : ((n : ℤ) - k).tdiv (k + 1) = q := by
      rw [← Nat.cast_sub (by omega), ← Nat.cast_succ, ← Int.ofNat_tdiv]
    have part : q * (k + 1) ≤ n - k := Nat.div_mul_le_self (n - k) (k + 1)
    have whole : q * (k + 1) = n - k ↔ k + 1 ∣ n + 1 := by
      have shifted : n + 1 = n - k + (k + 1) := by omega
      rw [shifted, Nat.dvd_add_self_right]
      exact ⟨fun same => Dvd.intro_left q same, Nat.div_mul_cancel⟩
    have step := Nat.choose_succ_right_eq n k
    have positive : 0 < n.choose k := Nat.choose_pos (by omega)
    have product : c * q * (k + 1) ≤ n.choose (k + 1) * (k + 1) := by
      rw [step, mul_assoc]
      exact Nat.mul_le_mul below part
    have split : c * q = n.choose (k + 1) ↔ c = n.choose k ∧ q * (k + 1) = n - k := by
      rw [← Nat.mul_left_inj (Nat.succ_ne_zero k), step, mul_assoc]
      constructor
      · intro same
        have upper : n.choose k * (n - k) ≤ n.choose k * (q * (k + 1)) := same.ge.trans (Nat.mul_le_mul_right _ below)
        have rounded := le_antisymm part (Nat.le_of_mul_le_mul_left upper positive)
        rw [rounded] at same
        exact ⟨Nat.eq_of_mul_eq_mul_right (by omega) same, rounded⟩
      · rintro ⟨rfl, rounded⟩
        rw [rounded]
    refine ⟨c * q, ?_, Nat.le_of_mul_le_mul_right product (Nat.succ_pos k), ?_⟩
    · rw [comb_succ, value, quotient]
      push_cast
      rfl
    · rw [split, exact, whole, Nat.forall_lt_succ_right]

/-- The weight of one set of `j` wrong bits. -/
def weight (r : ℚ) (n j : ℕ) : ℚ := r ^ j * (1 - r) ^ (n - j)

/-- The probability of at most `i` wrong bits. -/
def cdf (r : ℚ) (n i : ℕ) : ℚ := ∑ j ∈ Finset.range (i + 1), n.choose j * weight r n j

/-- Every quotient is exact, or those that are not have no weight. -/
def Exact (r : ℚ) (f n : ℕ) : Prop := r = 0 ∨ (r = 1 ∧ f < n) ∨ ∀ i < f, i + 1 ∣ n + 1

theorem term_eq (r : ℚ) (bound : j ≤ n) : term r n j = comb n j * weight r n j := by
  rw [term, weight, ← Nat.cast_sub bound, zpow_natCast, mul_assoc]

theorem foldl_accumulate (dptr : ℕ → ℚ) (f i : ℕ) : (List.range f).foldl accumulate dptr i =
    if i ≤ f then ∑ j ∈ Finset.range (i + 1), dptr j else dptr i := by
  induction f generalizing i with
  | zero =>
    split_ifs with first
    · rw [Nat.le_zero.mp first, Finset.sum_range_one]
      rfl
    · rfl
  | succ f ih =>
    rw [List.range_succ, List.foldl_append, List.foldl_cons, List.foldl_nil, accumulate]
    by_cases last : i = f + 1
    · rw [last, Function.update_self, ih, ih, if_neg (by omega), if_pos le_rfl, if_pos le_rfl, Finset.sum_range_succ _ (f + 1), add_comm]
    · rw [Function.update_of_ne last, ih]
      by_cases within : i ≤ f
      · rw [if_pos within, if_pos (by omega)]
      · rw [if_neg within, if_neg (by omega)]

theorem compute_eq (r : ℚ) (bound : i ≤ f) : computeBitErrProb r f n i = ∑ j ∈ Finset.range (i + 1), term r n j := by
  rw [computeBitErrProb, Function.update_of_ne (by omega), foldl_accumulate, if_pos bound]
  exact Finset.sum_congr rfl fun j member => if_pos (by have := Finset.mem_range.mp member; omega)

theorem compute_last (r : ℚ) (f n : ℕ) : computeBitErrProb r f n (f + 1) = 1 := Function.update_self _ _ _

section Rates

variable (lower : 0 ≤ r) (upper : r ≤ 1)

include lower upper

theorem weight_nonneg (n j : ℕ) : 0 ≤ weight r n j := mul_nonneg (pow_nonneg lower j) (pow_nonneg (sub_nonneg.mpr upper) (n - j))

theorem cdf_succ (n i : ℕ) : cdf r n i ≤ cdf r n (i + 1) := by
  rw [cdf, cdf, Finset.sum_range_succ _ (i + 1)]
  exact le_add_of_nonneg_right (mul_nonneg (Nat.cast_nonneg _) (weight_nonneg lower upper n (i + 1)))

theorem cdf_mono (n : ℕ) : Monotone (cdf r n) := monotone_nat_of_le_succ (cdf_succ lower upper n)

theorem cdf_le_one (bound : i ≤ n) : cdf r n i ≤ 1 := by
  have whole : cdf r n n = (r + (1 - r)) ^ n := by
    rw [add_pow]
    exact Finset.sum_congr rfl fun j _ => mul_comm _ _
  rw [add_sub_cancel, one_pow] at whole
  exact (cdf_mono lower upper n bound).trans_eq whole

end Rates

/-- The array holds the binomial distribution. -/
structure Distribution (dptr : ℕ → ℚ) (r : ℚ) (f n : ℕ) : Prop where
  cumulative : ∀ i ≤ f, dptr i = cdf r n i
  increasing : ∀ i ≤ f, dptr i ≤ dptr (i + 1)
  last : dptr (f + 1) = 1

/-- The terms are right exactly when their sums are. -/
theorem cumulative_iff (bound : f ≤ n) : (∀ i ≤ f, computeBitErrProb r f n i = cdf r n i) ↔
    ∀ j ≤ f, comb n j * weight r n j = n.choose j * weight r n j := by
  constructor
  · intro all j within
    have upTo := all j within
    rw [compute_eq r within, cdf, Finset.sum_range_succ, Finset.sum_range_succ, term_eq r (within.trans bound)] at upTo
    cases j with
    | zero => simpa only [Finset.range_zero, Finset.sum_empty, zero_add] using upTo
    | succ j =>
      have before := all j (by omega)
      rw [compute_eq r (by omega), cdf] at before
      rw [before] at upTo
      exact add_left_cancel upTo
  · intro all i within
    rw [compute_eq r within, cdf]
    refine Finset.sum_congr rfl fun j member => ?_
    have inside : j ≤ f := by
      have small := Finset.mem_range.mp member
      omega
    exact (term_eq r (inside.trans bound)).trans (all j inside)

theorem exact_of_comb (bound : k ≤ n) (same : comb n k = n.choose k) : ∀ i < k, i + 1 ∣ n + 1 := by
  obtain ⟨c, value, _, exact⟩ := comb_natCast bound
  rw [value, Nat.cast_inj] at same
  exact exact.mp same

theorem terms_iff (bound : f ≤ n) : (∀ j ≤ f, comb n j * weight r n j = n.choose j * weight r n j) ↔ Exact r f n := by
  constructor
  · intro all
    by_cases zero : r = 0
    · exact Or.inl zero
    · refine Or.inr ?_
      by_cases one : r = 1
      · by_cases below : f < n
        · exact Or.inl ⟨one, below⟩
        · have size : f = n := by omega
          have weight : weight r n f = 1 := by rw [weight, one, size, Nat.sub_self, one_pow, pow_zero, one_mul]
          have top := all f le_rfl
          rw [weight, mul_one, mul_one] at top
          exact Or.inr (exact_of_comb bound top)
      · have heavy : weight r n f ≠ 0 := mul_ne_zero (pow_ne_zero f zero) (pow_ne_zero _ (sub_ne_zero.mpr (Ne.symm one)))
        exact Or.inr (exact_of_comb bound (mul_right_cancel₀ heavy (all f le_rfl)))
  · rintro (zero | ⟨one, below⟩ | exact) j within
    · cases j with
      | zero => rw [Nat.choose_zero_right, Nat.cast_one]; rfl
      | succ j =>
        have light : weight r n (j + 1) = 0 := by rw [weight, zero, zero_pow (Nat.succ_ne_zero j), zero_mul]
        rw [light, mul_zero, mul_zero]
    · have light : weight r n j = 0 := by rw [weight, one, sub_self, zero_pow (by omega), mul_zero]
      rw [light, mul_zero, mul_zero]
    · obtain ⟨c, value, _, whole⟩ := comb_natCast (within.trans bound)
      rw [value, whole.mpr fun i small => exact i (small.trans_le within)]

theorem distribution_iff (lower : 0 ≤ r) (upper : r ≤ 1) (bound : f ≤ n) :
    Distribution (computeBitErrProb r f n) r f n ↔ Exact r f n := by
  rw [← terms_iff bound, ← cumulative_iff bound]
  refine ⟨Distribution.cumulative, fun cumulative => ⟨cumulative, fun i within => ?_, compute_last r f n⟩⟩
  rw [cumulative i within]
  rcases within.lt_or_eq with below | rfl
  · rw [cumulative (i + 1) below]
    exact cdf_succ lower upper n i
  · rw [compute_last]
    exact cdf_le_one lower upper bound

/-- Whether the arrays are to be computed or have been computed from the same parameters. -/
def Ready (s : ErrorModel) : Prop :=
  s.firstTime = true ∨ (s.cntrlprb = some (computeBitErrProb s.rate s.fecStrength s.cntrlpktsize) ∧
    s.dataprb = some (computeBitErrProb s.rate s.fecStrength s.datapktsize))

/-- For a uniform `u`, `corruptBit` draws at most `j` wrong bits with the probability of that, for all `j` up to
`fecStrength`, and at most one bit more. The packet is of the kind that has `n` bits. -/
def Draws (s : ErrorModel) (n : ℕ) : Prop :=
  ∀ size, (if size ≥ s.datapktsize then s.datapktsize else s.cntrlpktsize) = n → ∀ u, 0 ≤ u → u < 1 →
    ∃ next i, s.corruptBit u size = some (next, i) ∧ next.Ready ∧ i ≤ s.fecStrength + 1 ∧
      ∀ j ≤ s.fecStrength, (i ≤ j ↔ u < cdf s.rate n j)

theorem find_le_iff {dptr : ℕ → ℚ} (increasing : ∀ i ≤ f, dptr i ≤ dptr (i + 1)) (last : u < dptr (f + 1)) :
    ∃ i, ((List.range (f + 2)).find? fun i => dptr i > u) = some i ∧ i ≤ f + 1 ∧ ∀ j ≤ f, (i ≤ j ↔ u < dptr j) := by
  have up : ∀ i j, i ≤ j → j ≤ f + 1 → dptr i ≤ dptr j := fun i j below within => by
    induction j, below using Nat.le_induction with
    | base => exact le_rfl
    | succ j _ ih => exact (ih (by omega)).trans (increasing j (by omega))
  cases found : (List.range (f + 2)).find? fun i => dptr i > u with
  | none =>
    have none := List.find?_eq_none.mp found (f + 1) (List.mem_range.mpr (by omega))
    exact absurd (decide_eq_true last) none
  | some i =>
    obtain ⟨here, member, before⟩ := List.find?_range_eq_some.mp found
    have inside := List.mem_range.mp member
    refine ⟨i, rfl, by omega, fun j within => ⟨fun below => ?_, fun above => ?_⟩⟩
    · exact (of_decide_eq_true here).trans_le (up i j below (by omega))
    · by_contra later
      have not := before j (by omega)
      rw [decide_eq_true above] at not
      cases not

/-- The parameters are as before, and the arrays are there. -/
theorem Ready.precompute {s : ErrorModel} (ready : s.Ready) (strong : 0 < s.fecStrength) :
    s.precompute.rate = s.rate ∧ s.precompute.fecStrength = s.fecStrength ∧ s.precompute.datapktsize = s.datapktsize ∧
      s.precompute.cntrlpktsize = s.cntrlpktsize ∧
      s.precompute.cntrlprb = some (computeBitErrProb s.rate s.fecStrength s.cntrlpktsize) ∧
      s.precompute.dataprb = some (computeBitErrProb s.rate s.fecStrength s.datapktsize) := by
  unfold ErrorModel.precompute
  split_ifs with first
  · exact ⟨rfl, rfl, rfl, rfl, rfl, rfl⟩
  · rcases ready with fresh | ⟨control, data⟩
    · exact absurd ⟨fresh, strong.ne'⟩ first
    · exact ⟨rfl, rfl, rfl, rfl, control, data⟩

theorem Distribution.draws {s : ErrorModel} (distribution : Distribution (computeBitErrProb s.rate s.fecStrength n) s.rate s.fecStrength n)
    (ready : s.Ready) (strong : 0 < s.fecStrength) : s.Draws n := by
  intro size kind u lower upper
  obtain ⟨rate, strength, dataSize, controlSize, control, data⟩ := ready.precompute strong
  have array : (if size ≥ s.precompute.datapktsize then s.precompute.dataprb else s.precompute.cntrlprb) =
      some (computeBitErrProb s.rate s.fecStrength n) := by
    rw [dataSize, control, data, ← kind]
    split_ifs <;> rfl
  have last : u < computeBitErrProb s.rate s.fecStrength n (s.fecStrength + 1) := upper.trans_eq distribution.last.symm
  obtain ⟨i, found, capped, exact⟩ := find_le_iff distribution.increasing last
  refine ⟨s.precompute, i, ?_, Or.inr ?_, capped, fun j within => ?_⟩
  · rw [corruptBit, array, strength, Option.map_some, found]
    rfl
  · rw [rate, strength, dataSize, controlSize]
    exact ⟨control, data⟩
  · rw [← distribution.cumulative j within]
    exact exact j within

/-- The array is the binomial distribution and `corruptBit` draws from it, exactly when a correction is set and no
rounded quotient has weight. -/
theorem binomial_iff (n f : ℕ) (r : ℚ) (lower : 0 ≤ r) (upper : r ≤ 1) (bound : f ≤ n) :
    (Distribution (computeBitErrProb r f n) r f n ∧ ∀ s : ErrorModel, s.rate = r → s.fecStrength = f → s.Ready → s.Draws n) ↔
      0 < f ∧ Exact r f n := by
  constructor
  · rintro ⟨distribution, draws⟩
    refine ⟨Nat.pos_of_ne_zero fun weak => ?_, (distribution_iff lower upper bound).mp distribution⟩
    -- without a correction the arrays are never computed
    obtain ⟨next, i, drawn, _⟩ := draws ⟨r, f, true, n, n, none, none⟩ rfl rfl (Or.inl rfl) n (if_pos le_rfl) 0 le_rfl one_pos
    rw [corruptBit, precompute, if_neg fun both => both.2 weak, if_pos le_rfl] at drawn
    cases drawn
  · rintro ⟨strong, exact⟩
    have distribution := (distribution_iff lower upper bound).mpr exact
    refine ⟨distribution, fun s rate strength ready => ?_⟩
    subst rate strength
    exact distribution.draws ready strong

/-- A packet of five bits of which two can be corrected. -/
theorem binomial_iff_sample : Distribution (computeBitErrProb (1 / 10) 2 5) (1 / 10) 2 5 ∧
    (⟨1 / 10, 2, true, 5, 5, none, none⟩ : ErrorModel).Draws 5 := by
  obtain ⟨distribution, draws⟩ := (binomial_iff 5 2 (1 / 10) (by norm_num) (by norm_num) (by decide)).mpr
    ⟨by decide, Or.inr (Or.inr (by decide))⟩
  exact ⟨distribution, draws _ rfl rfl (Or.inl rfl)⟩

/-- `3/2` is rounded: of the six pairs of wrong bits in four, four are counted. -/
theorem pairs_miscounted : ¬Distribution (computeBitErrProb (1 / 2) 2 4) (1 / 2) 2 4 := by
  intro distribution
  have exact := (distribution_iff (by norm_num) (by norm_num) (by decide)).mp distribution
  rcases exact with zero | ⟨one, _⟩ | whole
  · exact absurd zero (by norm_num)
  · exact absurd one (by norm_num)
  · exact absurd (whole 1 (by decide)) (by decide)

end ErrorModel

end Ns2
