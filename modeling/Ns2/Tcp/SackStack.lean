import Mathlib.Data.Int.Notation
import Mathlib.Data.Nat.Notation
import Mathlib.Logic.Function.Basic
import Mathlib.Tactic.Common
import Ns2.Tcp.SackBlock

namespace Ns2

/-- `SackStack`: an array `SFE_` of `size_` entries, of which the first `cnt_` are in use. -/
structure SackStack where
  size : ℕ
  cnt : ℤ
  sfe : ℕ → SackBlock

namespace SackStack

/-- The entry of an unused place. -/
def unused : SackBlock := ⟨-1, -1⟩

def make (sz : ℕ) : SackStack := ⟨sz, 0, fun _ => unused⟩

/-- `SFE_[n]`; `none` is an index outside the array. -/
def read (s : SackStack) (n : ℕ) : Option SackBlock := if n < s.size then some (s.sfe n) else none

def write (s : SackStack) (n : ℕ) (b : SackBlock) : Option SackStack :=
  if n < s.size then some { s with sfe := Function.update s.sfe n b } else none

/-- The loop of `push`: the `count` entries from `n` on move up by one, the last one first. -/
def moveUp (n : ℕ) : ℕ → SackStack → Option SackStack
  | 0, s => some s
  | count + 1, s => do
    let b ← s.read (n + count)
    let s ← s.write (n + count + 1) b
    moveUp n count s

/-- The loop of `pop`: the `count` entries after `i` move down by one, the first one first. -/
def moveDown : ℕ → ℕ → SackStack → Option SackStack
  | 0, _, s => some s
  | count + 1, i, s => do
    let b ← s.read (i + 1)
    let s ← s.write i b
    moveDown count (i + 1) s

/-- The loop of `reset`. -/
def clear : ℕ → ℕ → SackStack → Option SackStack
  | 0, _, s => some s
  | count + 1, i, s => do
    let s ← s.write i unused
    clear count (i + 1) s

def reset (s : SackStack) : Option SackStack := do
  let s ← clear s.cnt.toNat 0 s
  return { s with cnt := 0 }

def push (s : SackStack) (n : ℕ) : Option SackStack := do
  let cnt := if s.cnt ≥ s.size then (s.size : ℤ) - 1 else s.cnt
  let s ← moveUp n (cnt - n).toNat s
  return { s with cnt := cnt + 1 }

def pop (s : SackStack) (n : ℕ) : Option SackStack := do
  let count := (s.cnt - 1 - n).toNat
  let s ← moveDown count n s
  let s ← s.write (n + count) unused
  return { s with cnt := s.cnt - 1 }

/-- The entries in use are this list and the places after them are unused. -/
structure Holds (s : SackStack) (entries : List SackBlock) : Prop where
  fits : entries.length ≤ s.size
  counted : s.cnt = entries.length
  stored : ∀ i < s.size, s.sfe i = entries[i]?.getD unused

theorem make_holds (sz : ℕ) : (make sz).Holds [] where
  fits := Nat.zero_le sz
  counted := rfl
  stored _ _ := rfl

theorem moveUp_spec (n count : ℕ) {s : SackStack} (inside : n + count < s.size) :
    moveUp n count s =
      some { s with sfe := fun j => if n < j ∧ j ≤ n + count then s.sfe (j - 1) else s.sfe j } := by
  induction count generalizing s with
  | zero =>
    have same : (fun j => if n < j ∧ j ≤ n + 0 then s.sfe (j - 1) else s.sfe j) = s.sfe := by
      funext j
      exact if_neg (by omega)
    rw [moveUp, same]
  | succ count ih =>
    have readable : s.read (n + count) = some (s.sfe (n + count)) := if_pos (by omega)
    have writable : s.write (n + count + 1) (s.sfe (n + count)) =
        some { s with sfe := Function.update s.sfe (n + count + 1) (s.sfe (n + count)) } := if_pos inside
    simp only [moveUp, readable, writable, Option.bind_eq_bind, Option.bind_some]
    rw [ih (by simp only; omega)]
    congr 2
    funext j
    simp only
    by_cases top : j = n + count + 1
    · rw [if_neg (by omega), if_pos (by omega), top, Function.update_self, Nat.add_sub_cancel]
    · by_cases moved : n < j ∧ j ≤ n + count
      · rw [if_pos moved, if_pos (by omega), Function.update_of_ne (by omega)]
      · rw [if_neg moved, if_neg (by omega), Function.update_of_ne top]

theorem moveDown_spec (count i : ℕ) {s : SackStack} (inside : i + count < s.size) :
    moveDown count i s =
      some { s with sfe := fun j => if i ≤ j ∧ j < i + count then s.sfe (j + 1) else s.sfe j } := by
  induction count generalizing s i with
  | zero =>
    have same : (fun j => if i ≤ j ∧ j < i + 0 then s.sfe (j + 1) else s.sfe j) = s.sfe := by
      funext j
      exact if_neg (by omega)
    rw [moveDown, same]
  | succ count ih =>
    have readable : s.read (i + 1) = some (s.sfe (i + 1)) := if_pos (by omega)
    have writable : s.write i (s.sfe (i + 1)) =
        some { s with sfe := Function.update s.sfe i (s.sfe (i + 1)) } := if_pos (by omega)
    simp only [moveDown, readable, writable, Option.bind_eq_bind, Option.bind_some]
    rw [ih (i + 1) (by simp only; omega)]
    congr 2
    funext j
    simp only
    by_cases first : j = i
    · rw [if_neg (by omega), if_pos (by omega), first, Function.update_self]
    · by_cases moved : i + 1 ≤ j ∧ j < i + 1 + count
      · rw [if_pos moved, if_pos (by omega), Function.update_of_ne (by omega)]
      · rw [if_neg moved, if_neg (by omega), Function.update_of_ne first]

theorem clear_spec (count i : ℕ) {s : SackStack} (inside : i + count ≤ s.size) :
    clear count i s = some { s with sfe := fun j => if i ≤ j ∧ j < i + count then unused else s.sfe j } := by
  induction count generalizing s i with
  | zero =>
    have same : (fun j => if i ≤ j ∧ j < i + 0 then unused else s.sfe j) = s.sfe := by
      funext j
      exact if_neg (by omega)
    rw [clear, same]
  | succ count ih =>
    have writable : s.write i unused = some { s with sfe := Function.update s.sfe i unused } :=
      if_pos (by omega)
    simp only [clear, writable, Option.bind_eq_bind, Option.bind_some]
    rw [ih (i + 1) (by simp only; omega)]
    congr 2
    funext j
    simp only
    by_cases first : j = i
    · rw [if_neg (by omega), if_pos (by omega), first, Function.update_self]
    · by_cases later : i + 1 ≤ j ∧ j < i + 1 + count
      · rw [if_pos later, if_pos (by omega)]
      · rw [if_neg later, if_neg (by omega), Function.update_of_ne first]

variable {s : SackStack} {entries : List SackBlock}

theorem Holds.reset (holds : s.Holds entries) : ∃ next, s.reset = some next ∧ next.size = s.size ∧ next.Holds [] := by
  have fits := holds.fits
  have cleared := clear_spec s.cnt.toNat 0 (s := s) (by rw [holds.counted]; omega)
  simp only [SackStack.reset, cleared, Option.bind_eq_bind, Option.bind_some]
  refine ⟨_, rfl, rfl, Nat.zero_le _, rfl, fun i inside => ?_⟩
  simp only [holds.counted, Int.toNat_natCast] at inside ⊢
  by_cases used : i < entries.length
  · rw [if_pos (by omega)]
    rfl
  · rw [if_neg (by omega), holds.stored i inside, List.getElem?_eq_none (by omega)]
    rfl

theorem Holds.pop {k : ℕ} (holds : s.Holds entries) (used : k < entries.length) :
    ∃ next, s.pop k = some next ∧ next.size = s.size ∧ next.Holds (entries.eraseIdx k) := by
  have fits := holds.fits
  have count : (s.cnt - 1 - k).toNat = entries.length - 1 - k := by
    rw [holds.counted]
    omega
  have length := List.length_eraseIdx_of_lt used
  have moved := moveDown_spec (entries.length - 1 - k) k (s := s) (by omega)
  simp only [SackStack.pop, count, moved, write, Option.bind_eq_bind, Option.bind_some]
  rw [if_pos (show k + (entries.length - 1 - k) < s.size by omega), Option.bind_some]
  refine ⟨_, rfl, rfl, by simp only; omega, by simp only [holds.counted]; omega, fun i inside => ?_⟩
  simp only [List.getElem?_eraseIdx] at inside ⊢
  have here := holds.stored i inside
  by_cases last : i = entries.length - 1
  · rw [show k + (entries.length - 1 - k) = i by omega, Function.update_self, if_neg (by omega),
      List.getElem?_eq_none (by omega)]
    rfl
  · rw [Function.update_of_ne (by omega)]
    by_cases below : i < k
    · rw [if_neg (by omega), if_pos below, here]
    · rw [if_neg below]
      by_cases shifted : i < entries.length - 1
      · rw [if_pos (by omega), holds.stored (i + 1) (by omega)]
      · rw [if_neg (by omega), here, List.getElem?_eq_none (by omega), List.getElem?_eq_none (by omega)]

/-- Pushing drops the last entry of a full stack. -/
theorem Holds.push {b : SackBlock} (holds : s.Holds entries) (room : 0 < s.size) :
    ∃ pushed next, s.push 0 = some pushed ∧ pushed.write 0 b = some next ∧ next.size = s.size ∧
      next.Holds ((b :: entries).take s.size) := by
  have fits := holds.fits
  have counted := holds.counted
  have count : ((if s.cnt ≥ s.size then (s.size : ℤ) - 1 else s.cnt) - (0 : ℕ)).toNat =
      min entries.length (s.size - 1) := by
    split_ifs <;> omega
  have moved := moveUp_spec 0 (min entries.length (s.size - 1)) (s := s) (by omega)
  simp only [SackStack.push, count, moved, write, Option.bind_eq_bind, Option.bind_some]
  refine ⟨_, _, rfl, if_pos room, rfl, ?_, ?_, fun i inside => ?_⟩
  · rw [List.length_take]
    exact Nat.min_le_left _ _
  · rw [List.length_take, List.length_cons]
    simp only
    split_ifs <;> omega
  · simp only [List.getElem?_take] at inside ⊢
    rw [if_pos inside]
    cases i with
    | zero => rfl
    | succ i =>
      rw [Function.update_of_ne (Nat.succ_ne_zero i), List.getElem?_cons_succ]
      by_cases shifted : i + 1 ≤ min entries.length (s.size - 1)
      · rw [if_pos (by omega), show i.succ - 1 = i by omega, holds.stored i (by omega)]
      · rw [if_neg (by omega), holds.stored (i + 1) inside,
          List.getElem?_eq_none (by omega), List.getElem?_eq_none (by omega)]

end SackStack

end Ns2
