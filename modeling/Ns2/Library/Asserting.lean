import Mathlib.Tactic.Common

universe u v

/-! Routines with assertions: `none` is a run that an assertion has ended. -/

/-- `assert (c)` before the rest of a routine. -/
def asserting {α : Type u} (c : Prop) [Decidable c] (rest : Option α) : Option α := if c then rest else none

theorem asserting_eq_some {α : Type u} {c : Prop} [Decidable c] {rest : Option α} {result : α}
    (done : asserting c rest = some result) : c ∧ rest = some result := by
  unfold asserting at done
  by_cases met : c
  · rw [if_pos met] at done
    exact ⟨met, done⟩
  · rw [if_neg met] at done
    cases done

/-- What the routine gives meets `post`; if `strict` holds, it gives something. -/
def Yields {α : Type u} (strict : Prop) (routine : Option α) (post : α → Prop) : Prop :=
  match routine with
  | none => ¬strict
  | some result => post result

namespace Yields

variable {α : Type u} {β : Type v} {strict : Prop} {routine : Option α} {post : α → Prop}

theorem some {result : α} (holds : post result) : Yields strict (.some result) post := holds

theorem ite {c : Prop} [Decidable c] {left right : Option α} (yes : c → Yields strict left post)
    (no : ¬c → Yields strict right post) : Yields strict (if c then left else right) post := by
  by_cases holds : c
  · rw [if_pos holds]
    exact yes holds
  · rw [if_neg holds]
    exact no holds

theorem of_asserting {c : Prop} [Decidable c] (met : strict → c) (rest : c → Yields strict routine post) :
    Yields strict (asserting c routine) post :=
  ite rest fun fails claimed => fails (met claimed)

theorem bind {next : α → Option β} {goal : β → Prop} (first : Yields strict routine post)
    (rest : ∀ result, post result → Yields strict (next result) goal) : Yields strict (routine.bind next) goal := by
  cases routine with
  | none => exact first
  | some result => exact rest result first

theorem map {f : α → β} {goal : β → Prop} (first : Yields strict routine post) (rest : ∀ result, post result → goal (f result)) :
    Yields strict (routine.map f) goal := by
  cases routine with
  | none => exact first
  | some result => exact rest result first

theorem of_exists (found : strict → ∃ result, routine = .some result) : Yields strict routine fun result => routine = .some result := by
  cases routine with
  | none =>
    intro claimed
    obtain ⟨result, absent⟩ := found claimed
    cases absent
  | some result => rfl

theorem mono {goal : α → Prop} (first : Yields strict routine post) (rest : ∀ result, post result → goal result) :
    Yields strict routine goal := by
  cases routine with
  | none => exact first
  | some result => exact rest result first

theorem of_eq_some {result : α} (yields : Yields strict routine post) (same : routine = .some result) : post result := by
  subst same
  exact yields

theorem exists_of_strict (yields : Yields strict routine post) (claimed : strict) : ∃ result, routine = .some result ∧ post result := by
  cases routine with
  | none => exact absurd claimed yields
  | some result => exact ⟨result, rfl, yields⟩

end Yields
