import Mathlib.Algebra.Ring.Nat
import Mathlib.Data.List.Basic

universe u v

namespace RunLength

variable {σ : Type u} {β : Type v} (value : β → σ) (count : β → ℕ)

/-- The values that a list of runs stands for: each run is one value, a number of times. -/
def expand (runs : List β) : List σ := runs.flatMap fun run => List.replicate (count run) (value run)

variable {value : β → σ} {count : β → ℕ} {runs before after : List β} {run : β} {k : ℕ}

@[simp] theorem expand_nil : expand value count [] = [] := rfl

@[simp] theorem expand_cons : expand value count (run :: runs) = List.replicate (count run) (value run) ++ expand value count runs :=
  List.flatMap_cons

@[simp] theorem expand_append : expand value count (before ++ after) = expand value count before ++ expand value count after :=
  List.flatMap_append

theorem length_expand : (expand value count runs).length = (runs.map count).sum := by
  induction runs with
  | nil => rfl
  | cons run runs ih => simp [ih]

theorem expand_replicate (n : ℕ) :
    expand value count (List.replicate n run) = List.replicate (n * count run) (value run) := by
  induction n with
  | zero => simp
  | succ n ih => rw [List.replicate_succ, expand_cons, ih, ← List.replicate_add, Nat.succ_mul, Nat.add_comm]

variable (value count) in
/-- The run that position `k` belongs to, and the runs before and after it. -/
structure At (runs : List β) (k : ℕ) (before : List β) (run : β) (after : List β) : Prop where
  split : runs = before ++ run :: after
  low : (expand value count before).length ≤ k
  high : k < (expand value count before).length + count run

theorem exists_at (inside : k < (expand value count runs).length) : ∃ before run after, At value count runs k before run after := by
  induction runs generalizing k with
  | nil => exact absurd inside (Nat.not_lt_zero k)
  | cons first rest ih =>
    rcases Nat.lt_or_ge k (count first) with here | later
    · exact ⟨[], first, rest, rfl, Nat.zero_le k, by simpa using here⟩
    · rw [expand_cons, List.length_append, List.length_replicate] at inside
      obtain ⟨before, run, after, located⟩ := ih (show k - count first < (expand value count rest).length by omega)
      have low := located.low
      have high := located.high
      refine ⟨first :: before, run, after, by rw [located.split]; rfl, ?_, ?_⟩ <;>
        rw [expand_cons, List.length_append, List.length_replicate] <;> omega

theorem At.values (located : At value count runs k before run after) :
    expand value count runs = expand value count before ++ List.replicate (count run) (value run) ++ expand value count after := by
  rw [located.split, expand_append, expand_cons, List.append_assoc]

theorem At.getElem? (located : At value count runs k before run after) : (expand value count runs)[k]? = some (value run) := by
  have low := located.low
  have high := located.high
  rw [located.values, List.getElem?_append_left (by simp; omega), List.getElem?_append_right low, List.getElem?_replicate]
  exact if_pos (by omega)

theorem At.inside (located : At value count runs k before run after) : k < (expand value count runs).length :=
  (List.getElem?_eq_some_iff.mp located.getElem?).1

theorem At.take (located : At value count runs k before run after) :
    (expand value count runs).take k = expand value count before ++ List.replicate (k - (expand value count before).length) (value run) := by
  have low := located.low
  have high := located.high
  rw [located.values, List.append_assoc, List.take_append, List.take_of_length_le low, List.take_append, List.take_replicate,
    List.length_replicate, Nat.min_eq_left (by omega), show k - (expand value count before).length - count run = 0 by omega,
    List.take_zero, List.append_nil]

theorem At.drop (located : At value count runs k before run after) :
    (expand value count runs).drop (k + 1) =
      List.replicate (count run - (k - (expand value count before).length) - 1) (value run) ++ expand value count after := by
  have low := located.low
  have high := located.high
  rw [located.values, List.append_assoc, List.drop_append, List.drop_of_length_le (by omega), List.nil_append, List.drop_append,
    List.drop_replicate, List.length_replicate, show k + 1 - (expand value count before).length - count run = 0 by omega, List.drop_zero,
    show count run - (k + 1 - (expand value count before).length) = count run - (k - (expand value count before).length) - 1 by omega]

/-- Changing one value splits the run that it belongs to. -/
theorem At.set (located : At value count runs k before run after) (s : σ) :
    (expand value count runs).set k s = expand value count before ++ List.replicate (k - (expand value count before).length) (value run) ++
      s :: (List.replicate (count run - (k - (expand value count before).length) - 1) (value run) ++ expand value count after) := by
  rw [List.set_eq_take_append_cons_drop, if_pos located.inside, located.take, located.drop]

end RunLength
