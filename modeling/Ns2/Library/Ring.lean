import Mathlib.Algebra.BigOperators.Group.Finset.Basic
import Mathlib.Data.Nat.ModEq
import Mathlib.Order.Interval.Finset.Nat

universe u

namespace Ring

variable {α : Type u} {N lo hi : ℕ} {slots : ℕ → α} {value : ℕ → α}

/-- The numbers from `lo` up to `hi` lie in a ring of `N` places, each at
its residue, with the values that `value` gives them. -/
structure Window (N : ℕ) (slots : ℕ → α) (lo hi : ℕ) (value : ℕ → α) : Prop where
  fits : hi ≤ lo + N
  stored : ∀ k, lo ≤ k → k < hi → slots (k % N) = value k

/-- Writing one place after another, in increasing order of the numbers. -/
def fill (index : ℕ → ℕ) (entry : ℕ → α) (slots : ℕ → α) (start count : ℕ) : ℕ → α :=
  (List.range' start count).foldl (fun places i => Function.update places (index i) (entry i)) slots

theorem residue_ne {i j : ℕ} (fits : hi ≤ lo + N) (lowI : lo ≤ i) (highI : i < hi) (lowJ : lo ≤ j)
    (highJ : j < hi) (different : i ≠ j) : i % N ≠ j % N := by
  intro equal
  rcases Nat.lt_or_gt_of_ne different with less | more
  · have multiple := (Nat.modEq_iff_dvd' less.le).mp equal
    have atLeast := Nat.le_of_dvd (by omega) multiple
    omega
  · have multiple := (Nat.modEq_iff_dvd' more.le).mp equal.symm
    have atLeast := Nat.le_of_dvd (by omega) multiple
    omega

theorem Window.empty (N : ℕ) (slots value : ℕ → α) (lo : ℕ) : Window N slots lo lo value where
  fits := Nat.le_add_right lo N
  stored _ low high := absurd (low.trans_lt high) (lt_irrefl lo)

theorem Window.shrink {lo' hi' : ℕ} (window : Window N slots lo hi value) (low : lo ≤ lo')
    (high : hi' ≤ hi) : Window N slots lo' hi' value where
  fits := by
    have fits := window.fits
    omega
  stored k lowK highK := window.stored k (low.trans lowK) (highK.trans_le high)

theorem Window.congr {value' : ℕ → α} (window : Window N slots lo hi value)
    (same : ∀ k, lo ≤ k → k < hi → value k = value' k) : Window N slots lo hi value' where
  fits := window.fits
  stored k low high := (window.stored k low high).trans (same k low high)

/-- A write inside the window changes the value of that number only. -/
theorem Window.write {k : ℕ} (window : Window N slots lo hi value) (low : lo ≤ k) (high : k < hi) (entry : α) :
    Window N (Function.update slots (k % N) entry) lo hi (Function.update value k entry) where
  fits := window.fits
  stored i lowI highI := by
    by_cases same : i = k
    · rw [same, Function.update_self, Function.update_self]
    · have apart := residue_ne window.fits lowI highI low high same
      rw [Function.update_of_ne apart, Function.update_of_ne same]
      exact window.stored i lowI highI

theorem Window.extend (window : Window N slots lo hi value) (entry : α) (room : hi < lo + N)
    (nonempty : lo ≤ hi) (agrees : entry = value hi) : Window N (Function.update slots (hi % N) entry) lo (hi + 1) value where
  fits := room
  stored i low high := by
    by_cases same : i = hi
    · rw [same, Function.update_self, agrees]
    · have apart := residue_ne room low high nonempty (Nat.lt_succ_self hi) same
      rw [Function.update_of_ne apart]
      exact window.stored i low (by omega)

/-- Filling the places after a window, as long as the ring has room for all of them. -/
theorem Window.fill (window : Window N slots lo hi value) (entry : ℕ → α) (count : ℕ) (nonempty : lo ≤ hi)
    (room : hi + count ≤ lo + N) (agrees : ∀ k, hi ≤ k → k < hi + count → entry k = value k) :
    Window N (fill (· % N) entry slots hi count) lo (hi + count) value := by
  induction count generalizing hi slots with
  | zero => exact window
  | succ count ih =>
    have next := window.extend (entry hi) (by omega) nonempty (agrees hi le_rfl (by omega))
    have rest := ih next (by omega) (by omega) fun k low high => agrees k (by omega) (by omega)
    rw [show hi + (count + 1) = hi + 1 + count by omega]
    exact rest

end Ring

namespace Ring

variable {α : Type u} {N start : ℕ} {slots : ℕ → α} {l r front junk rest items : List α} {x : α}

/-- A list lies in a ring of `N` places, one entry after another from `start` on. -/
structure Laid (N : ℕ) (slots : ℕ → α) (start : ℕ) (l : List α) : Prop where
  fits : l.length ≤ N
  stored : ∀ i (inside : i < l.length), slots ((start + i) % N) = l[i]

theorem place_ne {i j : ℕ} (inI : i < N) (inJ : j < N) (different : i ≠ j) : (start + i) % N ≠ (start + j) % N :=
  residue_ne (Nat.le_refl (start + N)) (Nat.le_add_right _ _) (by omega) (Nat.le_add_right _ _) (by omega) (by omega)

theorem Laid.nil (N : ℕ) (slots : ℕ → α) (start : ℕ) : Laid N slots start [] :=
  ⟨Nat.zero_le N, fun _ inside => absurd inside (Nat.not_lt_zero _)⟩

theorem Laid.congr {start' : ℕ} (laid : Laid N slots start l) (same : start % N = start' % N) : Laid N slots start' l where
  fits := laid.fits
  stored i inside := by
    rw [← laid.stored i inside, Nat.add_mod, ← same, ← Nat.add_mod]

theorem laid_append : Laid N slots start (l ++ r) ↔
    (l ++ r).length ≤ N ∧ Laid N slots start l ∧ Laid N slots (start + l.length) r := by
  constructor
  · intro laid
    have fits := laid.fits
    rw [List.length_append] at fits
    refine ⟨laid.fits, ⟨by omega, ?_⟩, ⟨by omega, ?_⟩⟩
    · intro i inside
      rw [laid.stored i (by rw [List.length_append]; omega), List.getElem_append_left inside]
    · intro i inside
      rw [Nat.add_assoc, laid.stored (l.length + i) (by rw [List.length_append]; omega)]
      simp
  · rintro ⟨fits, left, right⟩
    refine ⟨fits, ?_⟩
    intro i inside
    rcases Nat.lt_or_ge i l.length with less | more
    · rw [left.stored i less, List.getElem_append_left less]
    · rw [List.length_append] at inside
      have value := right.stored (i - l.length) (by omega)
      rw [show start + l.length + (i - l.length) = start + i by omega] at value
      rw [value, List.getElem_append_right more]

theorem Laid.left (laid : Laid N slots start (l ++ r)) : Laid N slots start l := (laid_append.mp laid).2.1

theorem Laid.right (laid : Laid N slots start (l ++ r)) : Laid N slots (start + l.length) r := (laid_append.mp laid).2.2

theorem Laid.head (laid : Laid N slots start (x :: l)) : slots (start % N) = x := laid.stored 0 (Nat.succ_pos _)

/-- Whatever the places after the list hold continues it. -/
theorem Laid.extend_high {c : ℕ} (laid : Laid N slots start l) (room : l.length + c ≤ N) :
    ∃ junk : List α, junk.length = c ∧ Laid N slots start (l ++ junk) := by
  refine ⟨(List.range c).map fun i => slots ((start + l.length + i) % N), by simp, laid_append.mpr ⟨by simpa using room, laid, ?_⟩⟩
  refine ⟨by simp; omega, ?_⟩
  intro i inside
  simp

/-- Whatever the places before the list hold precedes it. -/
theorem Laid.extend_low {c : ℕ} (laid : Laid N slots (start + c) l) (room : l.length + c ≤ N) :
    ∃ junk : List α, junk.length = c ∧ Laid N slots start (junk ++ l) := by
  refine ⟨(List.range c).map fun i => slots ((start + i) % N), by simp, laid_append.mpr ⟨by simp; omega, ?_, by simpa using laid⟩⟩
  refine ⟨by simp; omega, ?_⟩
  intro i inside
  simp

theorem Laid.write {i : ℕ} (laid : Laid N slots start l) (inside : i < l.length) (x : α) :
    Laid N (Function.update slots ((start + i) % N) x) start (l.set i x) where
  fits := by simpa using laid.fits
  stored j within := by
    have fits := laid.fits
    rw [List.length_set] at within
    by_cases same : j = i
    · subst same
      rw [Function.update_self, List.getElem_set_self]
    · have apart : (start + j) % N ≠ (start + i) % N := place_ne (by omega) (by omega) same
      rw [Function.update_of_ne apart, laid.stored j within, List.getElem_set_of_ne (Ne.symm same)]

theorem Laid.write_head (laid : Laid N slots start (l ++ x :: r)) (y : α) :
    Laid N (Function.update slots ((start + l.length) % N) y) start (l ++ y :: r) := by
  have written := laid.write (i := l.length) (by simp) y
  rwa [List.set_append_right _ _ le_rfl, Nat.sub_self, List.set_cons_zero] at written

/-- When the ring is full, its first entry may as well come last. -/
theorem Laid.rotate (laid : Laid N slots start (x :: l)) (full : (x :: l).length = N) : Laid N slots (start + 1) (l ++ [x]) := by
  obtain ⟨_, first, rest⟩ := laid_append.mp (show Laid N slots start ([x] ++ l) from laid)
  rw [List.length_cons] at full
  refine laid_append.mpr ⟨by rw [List.length_append, List.length_singleton, full], rest, first.congr ?_⟩
  rw [show start + 1 + l.length = start + N by omega, Nat.add_mod_right]

theorem Laid.map {slots' : ℕ → α} {g : α → α} (laid : Laid N slots start l) (same : ∀ c < N, slots' c = g (slots c)) :
    Laid N slots' start (l.map g) where
  fits := by simpa using laid.fits
  stored i inside := by
    rw [List.length_map] at inside
    rw [same _ (Nat.mod_lt _ (by have fits := laid.fits; omega)), laid.stored i inside, List.getElem_map]

theorem Laid.mem_iff (laid : Laid N slots start l) (full : l.length = N) (low : start < N) : x ∈ l ↔ ∃ c < N, slots c = x := by
  constructor
  · intro member
    obtain ⟨i, inside, rfl⟩ := List.getElem_of_mem member
    exact ⟨(start + i) % N, Nat.mod_lt _ (by omega), laid.stored i inside⟩
  · rintro ⟨c, high, rfl⟩
    have reached (i : ℕ) (inside : i < N) (same : (start + i) % N = c) : slots c ∈ l := by
      rw [← same, laid.stored i (by omega)]
      exact List.getElem_mem _
    rcases Nat.lt_or_ge c start with less | more
    · refine reached (c + N - start) (by omega) ?_
      rw [show start + (c + N - start) = c + N by omega, Nat.add_mod_right, Nat.mod_eq_of_lt high]
    · refine reached (c - start) (by omega) ?_
      rw [show start + (c - start) = c by omega, Nat.mod_eq_of_lt high]

/-- Writes entries into one place after another. -/
def writes (N : ℕ) (slots : ℕ → α) (place : ℕ) : List α → ℕ → α
  | [] => slots
  | x :: xs => writes N (Function.update slots place x) ((place + 1) % N) xs

theorem Laid.writes (l junk r items : List α) (laid : Laid N slots start (l ++ junk ++ r)) (same : items.length = junk.length) :
    Laid N (writes N slots ((start + l.length) % N) items) start (l ++ items ++ r) := by
  induction items generalizing slots l junk with
  | nil =>
    rw [List.length_eq_zero_iff.mp same.symm] at laid
    exact laid
  | cons x xs ih =>
    obtain ⟨y, ys, rfl⟩ := List.exists_cons_of_length_eq_add_one same.symm
    rw [List.append_assoc, List.cons_append] at laid
    have next : Laid N (Function.update slots ((start + l.length) % N) x) start ((l ++ [x]) ++ ys ++ r) := by
      simpa using laid.write_head x
    have rest := ih (l ++ [x]) ys next (by simpa using same)
    rw [Ring.writes, Nat.mod_add_mod, Nat.add_assoc]
    simpa using rest

/-- Moves `count` entries, one after another, from the places after `src` to those after `dst`. -/
def moves (N : ℕ) (slots : ℕ → α) (src dst : ℕ) : ℕ → ℕ → α
  | 0 => slots
  | count + 1 => moves N (Function.update slots dst (slots src)) ((src + 1) % N) ((dst + 1) % N) count

/-- Moving a list towards the front across places that are not in use. -/
theorem Laid.moves (l junk front rest : List α) (laid : Laid N slots start (l ++ junk ++ front ++ rest)) :
    ∃ junk' : List α, junk'.length = junk.length ∧
      Laid N (moves N slots ((start + l.length + junk.length) % N) ((start + l.length) % N) front.length) start
        (l ++ front ++ junk' ++ rest) := by
  induction front generalizing slots l junk with
  | nil => exact ⟨junk, rfl, by simpa [Ring.moves] using laid⟩
  | cons x front ih =>
    have value : slots ((start + l.length + junk.length) % N) = x := by
      have suffix : Laid N slots start ((l ++ junk) ++ (x :: (front ++ rest))) := by simpa using laid
      have head := suffix.right.head
      rwa [List.length_append, ← Nat.add_assoc] at head
    rw [List.length_cons, Ring.moves, value, Nat.mod_add_mod, Nat.mod_add_mod]
    cases junk with
    | nil =>
      -- nothing lies in between: every entry is written back to its own place
      have next : Laid N (Function.update slots ((start + l.length) % N) x) start ((l ++ [x]) ++ [] ++ front ++ rest) := by
        have same : Laid N slots start (l ++ x :: (front ++ rest)) := by simpa using laid
        simpa using same.write_head x
      obtain ⟨junk', length, final⟩ := ih (l ++ [x]) [] next
      refine ⟨junk', length, ?_⟩
      simpa [Nat.add_assoc] using final
    | cons y ys =>
      have next : Laid N (Function.update slots ((start + l.length) % N) x) start ((l ++ [x]) ++ (ys ++ [x]) ++ front ++ rest) := by
        have same : Laid N slots start (l ++ y :: (ys ++ x :: (front ++ rest))) := by simpa using laid
        simpa using same.write_head x
      obtain ⟨junk', length, final⟩ := ih (l ++ [x]) (ys ++ [x]) next
      refine ⟨junk', by simpa using length, ?_⟩
      have places : start + (l ++ [x]).length + (ys ++ [x]).length = start + l.length + (y :: ys).length + 1 := by
        simp only [List.length_append, List.length_cons, List.length_nil]
        omega
      have place : start + (l ++ [x]).length = start + l.length + 1 := by
        rw [List.length_append, List.length_singleton, Nat.add_assoc]
      rw [places, place] at final
      simpa using final

end Ring
