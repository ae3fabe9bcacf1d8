import Ns2.Library.SignedWord
import Ns2.Queue.SRRMatrix

namespace Ns2.WSS

open SignedWord (wrap wrap_range wrap_of_range)
open WeightSpread (ruler terms lt_ruler_iff ruler_apart terms_eq_ruler count_terms)

/-- `items` for the order `N`, computed in an `int`. -/
def items (N : ℕ) : ℤ := wrap 32 (wrap 32 (2 ^ N) - 1)

/-- The loop of `init` from `j` on, in at most this many rounds. `none` is a write before
the array, or a loop that has not ended by then. -/
def fill (N : ℕ) : ℕ → ℤ → (ℕ → ℕ) → Option (ℕ → ℕ)
  | 0, _, _ => none
  | rounds + 1, j, pwss =>
    if j ≤ items N then
      if 0 < j then
        fill N rounds (wrap 32 (j + 1)) (Function.update pwss (j - 1).toNat (rawScan j.toNat N (N - 1)))
      else none
    else some pwss

/-- The table `pwss` for the order `N`. `fresh` is the memory that `malloc` returns. -/
def init (N rounds : ℕ) (fresh : ℕ → ℕ) : Option (ℕ → ℕ) := fill N rounds 1 fresh

/-- The sequence of order `k`, read from a table. -/
def sequence (k : ℕ) (pwss : ℕ → ℕ) : List ℕ := (List.range (2 ^ k - 1)).map pwss

/-- Entry `j`, counted from 1, is one more than the exponent of 2 in `j`; a value comes up as often as the weight
of its column asks for, evenly spread. -/
structure Spreads (k : ℕ) (pwss : ℕ → ℕ) : Prop where
  entry : ∀ j, 1 ≤ j → j ≤ 2 ^ k - 1 → pwss (j - 1) = 1 + padicValNat 2 j
  count : ∀ v, 1 ≤ v → v ≤ k → (sequence k pwss).count v = 2 ^ (k - v)
  apart : ∀ v p q, p < q → q < 2 ^ k - 1 → pwss p = v → pwss q = v → (∀ m, p < m → m < q → pwss m ≠ v) → q = p + 2 ^ v

/-- What the table for one order has to be. -/
structure Lawful (N : ℕ) (pwss : ℕ → ℕ) : Prop where
  spreads : ∀ k, 1 ≤ k → k ≤ N → Spreads k pwss
  isPrefix : ∀ k M rounds fresh pwss', 2 ^ M - 1 < 2 ^ 31 → init M rounds fresh = some pwss' → k ≤ N → k + 1 ≤ M →
    sequence k pwss <+: sequence (k + 1) pwss'

section Entries

variable {N k n : ℕ} {pwss fresh table : ℕ → ℕ}

/-- The scan stops at the first power of 2 that does not divide `i`, of those below `N`. -/
theorem rawScan_eq {i : ℕ} (positive : 0 < i) (few : n < N) (divides : 2 ^ (N - 1 - n) ∣ i) :
    rawScan i N n = min N (ruler i) := by
  induction n with
  | zero =>
    have level := (lt_ruler_iff positive).mpr divides
    rw [rawScan]
    omega
  | succ n ih =>
    rw [rawScan]
    have next : N - 1 - n = N - (n + 1) := by omega
    split_ifs with odd
    · have lower := (lt_ruler_iff positive).mpr divides
      have upper : ¬ N - (n + 1) < ruler i := fun more => odd (Nat.mod_eq_zero_of_dvd ((lt_ruler_iff positive).mp more))
      omega
    · exact ih (by omega) (next ▸ Nat.dvd_of_mod_eq_zero (not_not.mp odd))

theorem rawScan_ruler {i : ℕ} (positive : 0 < i) (below : i < 2 ^ N) : rawScan i N (N - 1) = ruler i := by
  have some : 0 < N := by
    rcases Nat.eq_zero_or_pos N with rfl | some
    · omega
    · exact some
  have level : ¬ N < ruler i := fun more => by
    have least := Nat.le_of_dvd positive ((lt_ruler_iff positive).mp more)
    omega
  rw [rawScan_eq positive (by omega) (by rw [Nat.sub_self]; exact one_dvd i)]
  omega

/-- The numbers that `init` counts to. -/
theorem items_eq (fits : 2 ^ N - 1 < 2 ^ 31) : items N = 2 ^ N - 1 := by
  have small : N ≤ 31 := by
    by_contra large
    have more : 2 ^ 32 ≤ 2 ^ N := Nat.pow_le_pow_right (by decide) (by omega)
    omega
  interval_cases N <;> decide

/-- While the counter does not leave the `int`, every place that it comes by is written. -/
theorem fill_eq {last : ℕ} (all : items N = last) (small : last < 2 ^ 31 - 1) (left extra : ℕ) (pwss : ℕ → ℕ) {j : ℕ} (begun : 1 ≤ j)
    (onward : j + left = last + 1) : ∃ table, fill N (left + 1 + extra) j pwss = some table ∧
      ∀ p, table p = if j ≤ p + 1 ∧ p < last then rawScan (p + 1) N (N - 1) else pwss p := by
  induction left generalizing j pwss with
  | zero =>
    refine ⟨pwss, ?_, fun p => ?_⟩
    · rw [Nat.zero_add, Nat.add_comm, fill, if_neg (by omega)]
    · rw [if_neg (by omega)]
  | succ left ih =>
    have counted : wrap 32 ((j : ℤ) + 1) = ((j + 1 : ℕ) : ℤ) := wrap_of_range (w := 32) (by decide) (by norm_num; omega) (by norm_num; omega)
    have place : ((j : ℤ) - 1).toNat = j - 1 := by omega
    obtain ⟨table, filled, entries⟩ := @ih (Function.update pwss (j - 1) (rawScan j N (N - 1))) (j + 1) (by omega) (by omega)
    refine ⟨table, ?_, fun p => ?_⟩
    · rw [show left + 1 + 1 + extra = left + 1 + extra + 1 by omega, fill, if_pos (by omega), if_pos (by omega), counted, place, Int.toNat_natCast,
        filled]
    · rw [entries]
      by_cases here : p = j - 1
      · rw [here, if_neg (by omega), if_pos (by omega), Function.update_self, Nat.sub_add_cancel begun]
      · rw [Function.update_of_ne here]
        exact if_congr (by omega) rfl rfl

/-- With the largest `int` as the last number, the loop does not end. -/
theorem fill_none {last : ℤ} (all : items N = last) (most : last = 2 ^ 31 - 1) (n : ℕ) (pwss : ℕ → ℕ) {j : ℤ} (inside : j ≤ last) :
    fill N n j pwss = none := by
  induction n generalizing j pwss with
  | zero => rfl
  | succ n ih =>
    rw [fill, if_pos (all ▸ inside)]
    split_ifs
    · refine ih _ ?_
      have range := (wrap_range (w := 32) (by decide) (j + 1)).2
      norm_num at range most
      omega
    · rfl

/-- A table that is finished stays what it is when more rounds are allowed. -/
theorem fill_more {rounds : ℕ} (extra : ℕ) {j : ℤ} (filled : fill N rounds j pwss = some table) : fill N (rounds + extra) j pwss = some table := by
  induction rounds generalizing j pwss with
  | zero => cases filled
  | succ rounds ih =>
    rw [Nat.succ_add, fill]
    rw [fill] at filled
    split_ifs at filled ⊢
    · exact ih filled
    · exact filled

/-- For the orders up to 30 the table is made, in one round more than it has entries. -/
theorem init_eq (small : N ≤ 30) (fresh : ℕ → ℕ) (extra : ℕ) : ∃ pwss, init N (2 ^ N + extra) fresh = some pwss ∧
    ∀ p < 2 ^ N - 1, pwss p = ruler (p + 1) := by
  have power : 2 ^ N ≤ 2 ^ 30 := Nat.pow_le_pow_right (by decide) small
  have positive := Nat.two_pow_pos N
  have all : items N = ((2 ^ N - 1 : ℕ) : ℤ) := by
    rw [items_eq (by omega), Nat.cast_sub positive]
    push_cast
    rfl
  obtain ⟨pwss, made, entries⟩ := fill_eq all (by omega) (2 ^ N - 1) extra fresh le_rfl (by omega)
  rw [Nat.sub_add_cancel positive] at made
  refine ⟨pwss, made, fun p inside => ?_⟩
  rw [entries, if_pos (by omega), rawScan_ruler (Nat.succ_pos p) (by omega)]

theorem init_ruler {rounds : ℕ} (fits : 2 ^ N - 1 < 2 ^ 31) (made : init N rounds fresh = some pwss) :
    N ≤ 30 ∧ ∀ p < 2 ^ N - 1, pwss p = ruler (p + 1) := by
  have small : N ≤ 30 := by
    by_contra large
    have order : N = 31 := by
      by_contra other
      have more : 2 ^ 32 ≤ 2 ^ N := Nat.pow_le_pow_right (by decide) (by omega)
      omega
    subst order
    have never := @fill_none 31 _ (items_eq fits) (by norm_num) rounds fresh 1 (by norm_num)
    rw [init, never] at made
    cases made
  obtain ⟨table, whole, entries⟩ := init_eq small fresh rounds
  have more := fill_more (2 ^ N) made
  rw [add_comm, ← init, whole] at more
  cases Option.some.inj more
  exact ⟨small, entries⟩

theorem sequence_terms (entries : ∀ p < 2 ^ N - 1, pwss p = ruler (p + 1)) (inside : k ≤ N) : sequence k pwss = terms k := by
  have shorter : 2 ^ k ≤ 2 ^ N := Nat.pow_le_pow_right (by decide) inside
  rw [terms_eq_ruler, sequence]
  refine List.map_congr_left fun p member => entries p ?_
  have below := List.mem_range.mp member
  omega

theorem spreads_of_ruler (entries : ∀ p < 2 ^ N - 1, pwss p = ruler (p + 1)) (inside : k ≤ N) : Spreads k pwss := by
  have shorter : 2 ^ k ≤ 2 ^ N := Nat.pow_le_pow_right (by decide) inside
  refine ⟨fun j begun within => ?_, fun v positive column => ?_, fun v p q before within first second none => ?_⟩
  · rw [entries (j - 1) (by omega), Nat.sub_add_cancel begun, ruler, add_comm]
  · rw [sequence_terms entries inside, count_terms positive column]
  · rw [entries p (by omega)] at first
    rw [entries q (by omega)] at second
    have next := ruler_apart (Nat.succ_pos p) (Nat.succ_lt_succ before) first second fun m after earlier same => by
      refine none (m - 1) (by omega) (by omega) ?_
      rw [entries (m - 1) (by omega), Nat.sub_add_cancel (by omega), same]
    omega

end Entries

/-- The tables that fit the array follow the law exactly up to order 30; at 31 the loop of `init` runs on. -/
theorem init_lawful_iff {N : ℕ} (fits : 2 ^ N - 1 < 2 ^ 31) (fresh : ℕ → ℕ) :
    (∃ rounds pwss, init N rounds fresh = some pwss ∧ Lawful N pwss) ↔ N ≤ 30 := by
  constructor
  · rintro ⟨rounds, pwss, made, -⟩
    exact (init_ruler fits made).1
  · intro small
    obtain ⟨pwss, made, entries⟩ := init_eq small fresh 0
    refine ⟨2 ^ N, pwss, made, fun k _ inside => spreads_of_ruler entries inside, ?_⟩
    intro k M rounds fresh' pwss' fits' made' inside inside'
    have entries' := (init_ruler fits' made').2
    rw [sequence_terms entries inside, sequence_terms entries' inside', terms]
    exact List.prefix_append _ _

theorem init_lawful_sample : ∃ rounds pwss, init 16 rounds (fun _ => 0) = some pwss ∧ Lawful 16 pwss :=
  (init_lawful_iff (by decide) _).mpr (by decide)

/-- The order whose length is the largest `int`. -/
theorem init_31_runs_on : 2 ^ 31 - 1 < 2 ^ 31 ∧ ∀ rounds fresh, init 31 rounds fresh = none :=
  ⟨by decide, fun rounds fresh => fill_none (items_eq (by decide)) (by norm_num) rounds fresh (by norm_num)⟩

end Ns2.WSS
