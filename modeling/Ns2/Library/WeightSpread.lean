import Mathlib.Data.List.Rotate
import Mathlib.Data.Nat.Bitwise
import Mathlib.NumberTheory.Padics.PadicVal.Basic
import Mathlib.Tactic.Ring

universe u

namespace WeightSpread

variable {α : Type u}

/-- The weight spread sequence of order `k`. -/
def terms : ℕ → List ℕ
  | 0 => []
  | k + 1 => terms k ++ (k + 1) :: terms k

theorem length_terms (k : ℕ) : (terms k).length + 1 = 2 ^ k := by
  induction k with
  | zero => rfl
  | succ k ih =>
    rw [terms, List.length_append, List.length_cons, pow_succ]
    omega

theorem terms_le {k v : ℕ} (member : v ∈ terms k) : 1 ≤ v ∧ v ≤ k := by
  induction k with
  | zero => exact absurd member List.not_mem_nil
  | succ k ih =>
    rcases List.mem_append.mp member with left | right
    · have bounds := ih left
      omega
    · rcases List.mem_cons.mp right with middle | last
      · omega
      · have bounds := ih last
        omega

/-- The terms are those of any numbering that puts `k + 1` at the next power of
2 and starts again after it. -/
theorem terms_getElem? {value : ℕ → ℕ} {k : ℕ} (top : ∀ j < k, value (2 ^ j) = j + 1)
    (again : ∀ j < k, ∀ i, 0 < i → i < 2 ^ j → value (2 ^ j + i) = value i) {t : ℕ} (inside : t < (terms k).length) :
    (terms k)[t]? = some (value (t + 1)) := by
  induction k generalizing t with
  | zero => exact absurd inside (Nat.not_lt_zero t)
  | succ k ih =>
    have half := length_terms k
    have earlier : ∀ {t}, t < (terms k).length → (terms k)[t]? = some (value (t + 1)) := fun inside =>
      ih (fun j below => top j (below.trans (Nat.lt_succ_self k))) (fun j below => again j (below.trans (Nat.lt_succ_self k))) inside
    rw [terms, List.length_append, List.length_cons] at inside
    rw [terms]
    rcases lt_trichotomy t (terms k).length with left | middle | right
    · rw [List.getElem?_append_left left]
      exact earlier left
    · rw [middle, List.getElem?_append_right le_rfl, Nat.sub_self, List.getElem?_cons_zero, half, top k (Nat.lt_succ_self k)]
    · obtain ⟨i, rfl⟩ : ∃ i, t = (terms k).length + 1 + i := ⟨t - (terms k).length - 1, by omega⟩
      have place : (terms k).length + 1 + i - (terms k).length = i + 1 := by omega
      rw [List.getElem?_append_right (by omega), place, List.getElem?_cons_succ, earlier (by omega)]
      have next := again k (Nat.lt_succ_self k) (i + 1) (Nat.succ_pos i) (by omega)
      rw [← half, ← add_assoc] at next
      rw [next]

/-- One more than the exponent of 2 in `j`. -/
def ruler (j : ℕ) : ℕ := padicValNat 2 j + 1

theorem lt_ruler_iff {j n : ℕ} (positive : 0 < j) : n < ruler j ↔ 2 ^ n ∣ j := by
  rw [ruler, Nat.lt_succ_iff, padicValNat_dvd_iff_le positive.ne']

theorem ruler_two_pow (n : ℕ) : ruler (2 ^ n) = n + 1 := by rw [ruler, padicValNat.prime_pow]

/-- The numbers after a power of 2 have the exponents of those from the start. -/
theorem ruler_add {n i : ℕ} (positive : 0 < i) (below : i < 2 ^ n) : ruler (2 ^ n + i) = ruler i := by
  refine eq_of_forall_lt_iff fun m => ?_
  rw [lt_ruler_iff positive, lt_ruler_iff (Nat.add_pos_right _ positive)]
  rcases le_or_gt m n with inside | above
  · exact Nat.dvd_add_right (pow_dvd_pow 2 inside)
  · have double : 2 ^ (n + 1) ≤ 2 ^ m := Nat.pow_le_pow_right (by decide) above
    rw [pow_succ] at double
    refine iff_of_false (fun divides => ?_) fun divides => ?_
    · have least := Nat.le_of_dvd (by omega) divides
      omega
    · have least := Nat.le_of_dvd positive divides
      omega

theorem ruler_eq_iff {j v : ℕ} (positive : 0 < j) : ruler j = v + 1 ↔ ∃ a, j = 2 ^ v * (2 * a + 1) := by
  have lower := lt_ruler_iff (n := v) positive
  have upper := lt_ruler_iff (n := v + 1) positive
  constructor
  · intro level
    obtain ⟨b, rfl⟩ := lower.mp (by omega)
    have odd : ¬ 2 ∣ b := fun even => by
      have divides : 2 ^ (v + 1) ∣ 2 ^ v * b := by
        rw [pow_succ]
        exact mul_dvd_mul_left _ even
      have more := upper.mpr divides
      omega
    exact ⟨b / 2, by rw [show 2 * (b / 2) + 1 = b by omega]⟩
  · rintro ⟨a, rfl⟩
    have at_least := lower.mpr (dvd_mul_right _ _)
    have at_most : ¬ v + 1 < ruler (2 ^ v * (2 * a + 1)) := fun more => by
      have divides := upper.mp more
      rw [pow_succ] at divides
      have even := Nat.dvd_of_mul_dvd_mul_left (Nat.two_pow_pos v) divides
      omega
    omega

/-- Two numbers of one exponent with none between them. -/
theorem ruler_apart {i j v : ℕ} (positive : 0 < i) (before : i < j) (first : ruler i = v) (second : ruler j = v)
    (none : ∀ m, i < m → m < j → ruler m ≠ v) : j = i + 2 ^ v := by
  obtain ⟨v, rfl⟩ : ∃ u, v = u + 1 := ⟨v - 1, by unfold ruler at first; omega⟩
  obtain ⟨a, rfl⟩ := (ruler_eq_iff positive).mp first
  obtain ⟨b, rfl⟩ := (ruler_eq_iff (positive.trans before)).mp second
  have further : 2 * a + 1 < 2 * b + 1 := Nat.lt_of_mul_lt_mul_left before
  have next : 2 ^ v * (2 * (a + 1) + 1) = 2 ^ v * (2 * a + 1) + 2 ^ (v + 1) := by ring
  rcases Nat.lt_or_ge (a + 1) b with between | reached
  · have here : 2 ^ v * (2 * (a + 1) + 1) < 2 ^ v * (2 * b + 1) := Nat.mul_lt_mul_of_pos_left (by omega) (Nat.two_pow_pos v)
    have after : 2 ^ v * (2 * a + 1) < 2 ^ v * (2 * (a + 1) + 1) := by
      have step := Nat.two_pow_pos (v + 1)
      omega
    exact absurd ((ruler_eq_iff (positive.trans after)).mpr ⟨a + 1, rfl⟩) (none _ after here)
  · rw [← next, show b = a + 1 by omega]

theorem terms_eq_ruler (k : ℕ) : terms k = (List.range (2 ^ k - 1)).map fun t => ruler (t + 1) := by
  have length := length_terms k
  refine List.ext_getElem? fun t => ?_
  by_cases inside : t < (terms k).length
  · rw [terms_getElem? (fun n _ => ruler_two_pow n) (fun n _ i positive below => ruler_add positive below) inside,
      List.getElem?_map, List.getElem?_range (by omega), Option.map_some]
  · rw [List.getElem?_eq_none (by omega), List.getElem?_eq_none (by rw [List.length_map, List.length_range]; omega)]

theorem count_terms {k v : ℕ} (positive : 1 ≤ v) (inside : v ≤ k) : (terms k).count v = 2 ^ (k - v) := by
  induction k with
  | zero => omega
  | succ k ih =>
    rw [terms, List.count_append]
    by_cases top : v = k + 1
    · have absent : (terms k).count v = 0 := List.count_eq_zero.mpr fun member => by
        have bounds := terms_le member
        omega
      rw [absent, top, List.count_cons_self, ← top, absent, Nat.sub_self]
      rfl
    · rw [List.count_cons_of_ne (Ne.symm top), ih (by omega), ← two_mul, ← pow_succ', Nat.sub_add_comm (by omega)]

/-- The entries of the columns that the terms name, a term naming the column
as far below `k` as its value. -/
def scan (column : ℕ → List α) (k : ℕ) : List α := (terms k).flatMap fun v => column (k - v)

theorem scan_succ (column : ℕ → List α) (k : ℕ) :
    scan column (k + 1) = scan (fun i => column (i + 1)) k ++ (column 0 ++ scan (fun i => column (i + 1)) k) := by
  have lifted : (terms k).flatMap (fun v => column (k + 1 - v)) = scan (fun i => column (i + 1)) k := by
    refine List.flatMap_congr fun v member => ?_
    have bounds := terms_le member
    rw [Nat.sub_add_comm bounds.2]
  rw [scan, terms, List.flatMap_append, List.flatMap_cons, lifted, Nat.sub_self]

/-- An entry that is in the columns of the bits of its weight is met as often as the weight says. -/
theorem count_scan [DecidableEq α] {column : ℕ → List α} {x : α} {weight k : ℕ}
    (bits : ∀ i < k, (column i).count x = (weight.testBit i).toNat) (bound : weight < 2 ^ k) :
    (scan column k).count x = weight := by
  induction k generalizing column weight with
  | zero =>
    rw [Nat.lt_one_iff.mp bound]
    rfl
  | succ k ih =>
    have half : (scan (fun i => column (i + 1)) k).count x = weight / 2 := by
      refine ih (fun i below => ?_) (by rw [pow_succ] at bound; omega)
      rw [bits (i + 1) (by omega), Nat.testBit_succ]
    have low : (column 0).count x = weight % 2 := by
      rw [bits 0 (Nat.succ_pos k), Nat.testBit_zero]
      rcases Nat.mod_two_eq_zero_or_one weight with even | odd
      · simp [even]
      · simp [odd]
    rw [scan_succ, List.count_append, List.count_append, half, low]
    omega

end WeightSpread

namespace CyclicScan

variable {α : Type u} {block : ℕ → List α} {m p n : ℕ} {x : α} {rest cycle front back : List α}

/-- The entries of all the blocks, once round from block `p` on. -/
def turn (block : ℕ → List α) (m p : ℕ) : List α := (List.range m).flatMap fun i => block ((p + i) % m)

/-- What comes up after `n` others, first in `rest` and then in `cycle` over and over. -/
def entry (rest cycle : List α) (n : ℕ) : Option α :=
  if n < rest.length then rest[n]? else cycle[(n - rest.length) % cycle.length]?

theorem turn_zero (block : ℕ → List α) (m : ℕ) : turn block m 0 = (List.range m).flatMap block :=
  List.flatMap_congr fun i member => by rw [zero_add, Nat.mod_eq_of_lt (List.mem_range.mp member)]

/-- One block on: what was first comes last. -/
theorem turn_next (block : ℕ → List α) (inside : p < m) : ∃ others, turn block m p = block p ++ others ∧ turn block m ((p + 1) % m) = others ++ block p := by
  obtain ⟨m, rfl⟩ : ∃ n, m = n + 1 := ⟨m - 1, by omega⟩
  refine ⟨(List.range m).flatMap fun i => block ((p + 1 + i) % (m + 1)), ?_, ?_⟩
  · rw [turn, List.range_succ_eq_map, List.flatMap_cons, List.flatMap_map, add_zero, Nat.mod_eq_of_lt inside]
    refine congrArg (block p ++ ·) (List.flatMap_congr fun i _ => ?_)
    rw [Nat.succ_eq_add_one, add_assoc, add_comm 1 i]
  · have whole : (p + 1 + m) % (m + 1) = p := by
      rw [add_assoc, add_comm 1 m, Nat.add_mod_right, Nat.mod_eq_of_lt inside]
    rw [turn, List.range_succ, List.flatMap_append, List.flatMap_singleton, Nat.mod_add_mod, whole]
    exact congrArg (· ++ block p) (List.flatMap_congr fun i _ => by rw [Nat.mod_add_mod])

theorem turn_perm (inside : p < m) : (turn block m p).Perm (turn block m 0) := by
  induction p with
  | zero => exact List.Perm.refl _
  | succ p ih =>
    obtain ⟨others, here, next⟩ := turn_next block (show p < m by omega)
    rw [Nat.mod_eq_of_lt inside] at next
    rw [next]
    refine List.perm_append_comm.trans ?_
    rw [← here]
    exact ih (by omega)

theorem entry_succ : entry (x :: rest) cycle (n + 1) = entry rest cycle n := by
  unfold entry
  simp only [List.length_cons, Nat.add_lt_add_iff_right, List.getElem?_cons_succ, Nat.add_sub_add_right]

theorem entry_later (rest cycle : List α) (n : ℕ) : entry rest cycle (rest.length + n) = cycle[n % cycle.length]? := by
  unfold entry
  rw [if_neg (by omega), Nat.add_sub_cancel_left]

/-- The cycle may be read from its second part on, when the first has been read. -/
theorem entry_append : entry [] (front ++ back) n = entry front (back ++ front) n := by
  unfold entry
  rw [List.length_nil, if_neg (Nat.not_lt_zero n), Nat.sub_zero]
  split_ifs with early
  · rw [Nat.mod_eq_of_lt (by rw [List.length_append]; omega), List.getElem?_append_left early]
  · obtain ⟨i, rfl⟩ : ∃ i, n = front.length + i := ⟨n - front.length, by omega⟩
    rw [Nat.add_sub_cancel_left]
    rcases (front ++ back).length.eq_zero_or_pos with none | positive
    · have empty : front ++ back = [] := List.eq_nil_of_length_eq_zero none
      obtain ⟨rfl, rfl⟩ := List.append_eq_nil_iff.mp empty
      simp
    · have length : (back ++ front).length = (front ++ back).length := by simp [add_comm]
      have within : i % (back ++ front).length < (front ++ back).length := length ▸ Nat.mod_lt i (length ▸ positive)
      have turned : back ++ front = (front ++ back).rotate front.length := (List.rotate_append_length_eq front back).symm
      rw [turned, List.getElem?_rotate (by rw [← turned]; exact within), ← turned, length, Nat.mod_add_mod, add_comm i]

theorem entry_turn (block : ℕ → List α) (inside : p < m) (n : ℕ) :
    entry [] (turn block m p) n = entry (block p) (turn block m ((p + 1) % m)) n := by
  obtain ⟨others, here, next⟩ := turn_next block inside
  rw [here, next, entry_append]

/-- One round of the cycle, wherever it starts. -/
theorem round_perm (cycle : List α) (n : ℕ) :
    ((List.range cycle.length).map fun i => cycle[(n + i) % cycle.length]?).Perm (cycle.map some) := by
  have turned : ((List.range cycle.length).map fun i => cycle[(n + i) % cycle.length]?) = (cycle.rotate n).map some := by
    refine List.ext_getElem? fun i => ?_
    by_cases inside : i < cycle.length
    · rw [List.getElem?_map, List.getElem?_range inside, List.getElem?_map, List.getElem?_rotate inside, add_comm i n]
      have within := Nat.mod_lt (n + i) (Nat.zero_lt_of_lt inside)
      simp [List.getElem?_eq_getElem within]
    · rw [List.getElem?_eq_none (by simpa using inside), List.getElem?_eq_none (by simpa using inside)]
  rw [turned]
  exact (List.rotate_perm cycle n).map some

end CyclicScan
