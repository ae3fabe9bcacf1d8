import Mathlib.Data.Int.Notation
import Mathlib.Data.List.Basic
import Mathlib.Logic.Function.Basic
import Mathlib.Tactic.Common

universe u

/-! Arrays whose first entries are in use. An index that comes from elsewhere is an integer. -/

structure UsedArray (ε : Type u) where
  entry : ℕ → ε
  nb : ℕ

namespace UsedArray

variable {ε : Type u}

/-- `none` is an access to an entry that is not in use. -/
def read (t : UsedArray ε) (i : ℤ) : Option ε := if 0 ≤ i ∧ i < t.nb then some (t.entry i.toNat) else none

def modify (t : UsedArray ε) (i : ℕ) (f : ε → ε) : UsedArray ε := { t with entry := Function.update t.entry i (f (t.entry i)) }

def write (t : UsedArray ε) (i : ℤ) (f : ε → ε) : Option (UsedArray ε) :=
  if 0 ≤ i ∧ i < t.nb then some (t.modify i.toNat f) else none

def push (t : UsedArray ε) (e : ε) : UsedArray ε := ⟨Function.update t.entry t.nb e, t.nb + 1⟩

def map (t : UsedArray ε) (f : ε → ε) : UsedArray ε := { t with entry := fun i => f (t.entry i) }

/-- The first entry in use that meets `p`. -/
def locate (t : UsedArray ε) (p : ε → Bool) : Option ℕ := (List.range t.nb).find? fun i => p (t.entry i)

/-- All entries in use meet `P`. -/
def All (t : UsedArray ε) (P : ε → Prop) : Prop := ∀ i < t.nb, P (t.entry i)

variable {t t' : UsedArray ε} {P Q : ε → Prop} {p : ε → Bool} {f : ε → ε} {e : ε} {i : ℤ} {j : ℕ}

theorem read_eq_some : t.read i = some e ↔ ∃ j : ℕ, i = (j : ℤ) ∧ j < t.nb ∧ t.entry j = e := by
  rw [read]
  split_ifs with inside
  · obtain ⟨j, rfl⟩ := Int.eq_ofNat_of_zero_le inside.1
    rw [Int.toNat_natCast, Option.some.injEq]
    constructor
    · exact fun here => ⟨j, rfl, Int.ofNat_lt.mp inside.2, here⟩
    · rintro ⟨k, same, _, here⟩
      rwa [Int.ofNat_inj.mp same]
  · refine iff_of_false id ?_
    rintro ⟨j, rfl, low, _⟩
    exact inside ⟨Int.natCast_nonneg j, Int.ofNat_lt.mpr low⟩

theorem read_natCast (inUse : j < t.nb) : t.read j = some (t.entry j) := read_eq_some.mpr ⟨j, rfl, inUse, rfl⟩

theorem read_of_lt (low : 0 ≤ i) (high : i < t.nb) : t.read i = some (t.entry i.toNat) := if_pos ⟨low, high⟩

theorem write_of_lt (low : 0 ≤ i) (high : i < t.nb) : t.write i f = some (t.modify i.toNat f) := if_pos ⟨low, high⟩

theorem write_eq_some (written : t.write i f = some t') : ∃ j : ℕ, i = (j : ℤ) ∧ j < t.nb ∧ t' = t.modify j f := by
  rw [write] at written
  split_ifs at written with inside
  obtain ⟨j, rfl⟩ := Int.eq_ofNat_of_zero_le inside.1
  rw [Int.toNat_natCast] at written
  exact ⟨j, rfl, Int.ofNat_lt.mp inside.2, (Option.some.inj written).symm⟩

theorem locate_some (located : t.locate p = some j) : j < t.nb ∧ p (t.entry j) = true :=
  ⟨List.mem_range.mp (List.mem_of_find?_eq_some located), List.find?_some (p := fun i => p (t.entry i)) located⟩

@[simp] theorem modify_nb : (t.modify j f).nb = t.nb := rfl

theorem modify_self : (t.modify j f).entry j = f (t.entry j) := Function.update_self ..

theorem modify_other {k : ℕ} (other : k ≠ j) : (t.modify j f).entry k = t.entry k := Function.update_of_ne other ..

theorem push_old (inUse : j < t.nb) : (t.push e).entry j = t.entry j := Function.update_of_ne (Nat.ne_of_lt inUse) ..

theorem push_new : (t.push e).entry t.nb = e := Function.update_self ..

theorem All.mono (all : t.All P) (weaker : ∀ e, P e → Q e) : t.All Q := fun j inUse => weaker _ (all j inUse)

theorem All.push (all : t.All P) (new : P e) : (t.push e).All P := by
  intro j inUse
  rcases Nat.lt_succ_iff_lt_or_eq.mp inUse with old | rfl
  · rw [push_old old]
    exact all j old
  · rw [push_new]
    exact new

theorem All.modify (all : t.All P) (changed : P (t.entry j) → P (f (t.entry j))) : (t.modify j f).All P := by
  intro k inUse
  by_cases here : k = j
  · rw [here, modify_self]
    exact changed (all j (here ▸ inUse))
  · rw [modify_other here]
    exact all k inUse

theorem All.map (all : t.All P) (changed : ∀ e, P e → Q (f e)) : (t.map f).All Q := fun j inUse => changed _ (all j inUse)

end UsedArray
