import Mathlib.Data.List.Nodup
import Mathlib.Data.List.Range
import Mathlib.Data.Multiset.DershowitzManna
import Mathlib.Logic.Function.Iterate

universe u v w

namespace Sweep

variable {σ : Type u} {ι : Type v} {β : Type w} {f : σ → ι → σ} {s : σ} {l : List ι} {u : ι} {P : σ → Prop}

theorem foldl_kept (kept : ∀ s, ∀ v ∈ l, P s → P (f s v)) (holds : P s) : P (l.foldl f s) := by
  induction l generalizing s with
  | nil => exact holds
  | cons v l ih => exact ih (fun s u member => kept s u (List.mem_cons_of_mem v member)) (kept s v List.mem_cons_self holds)

theorem foldlM_kept {f : σ → ι → Option σ} {last : σ} (kept : ∀ s s', ∀ v ∈ l, P s → f s v = some s' → P s') (holds : P s)
    (run : l.foldlM f s = some last) : P last := by
  induction l generalizing s with
  | nil => exact Option.some.inj run ▸ holds
  | cons v l ih =>
    rw [List.foldlM_cons] at run
    obtain ⟨mid, first, rest⟩ := Option.bind_eq_some_iff.mp run
    exact ih (fun s s' u member => kept s s' u (List.mem_cons_of_mem v member)) (kept s mid v List.mem_cons_self holds first) rest

/-- A loop that writes only the cell of its index leaves the others alone. -/
theorem foldl_other (get : σ → ι → β) (own : ∀ s, ∀ v ∈ l, u ≠ v → get (f s v) u = get s u) (absent : u ∉ l) : get (l.foldl f s) u = get s u :=
  foldl_kept (P := fun t => get t u = get s u)
    (fun t v member same => (own t v member fun equal => absent (equal ▸ member)).trans same) rfl

/-- The cell of an index is what its own turn leaves, in a state that the turns before have kept. -/
theorem foldl_own (get : σ → ι → β) (own : ∀ s, ∀ v ∈ l, u ≠ v → get (f s v) u = get s u) (kept : ∀ s, ∀ v ∈ l, P s → P (f s v))
    (distinct : l.Nodup) (member : u ∈ l) (holds : P s) :
    ∃ mid, get (l.foldl f s) u = get (f mid u) u ∧ get mid u = get s u ∧ P mid := by
  induction l generalizing s with
  | nil => exact absurd member List.not_mem_nil
  | cons v l ih =>
    obtain ⟨absent, distinct⟩ := List.nodup_cons.mp distinct
    have ownTail : ∀ s, ∀ w ∈ l, u ≠ w → get (f s w) u = get s u := fun s w inside => own s w (List.mem_cons_of_mem v inside)
    rcases List.mem_cons.mp member with rfl | later
    · exact ⟨s, foldl_other get ownTail absent, rfl, holds⟩
    · have keptTail : ∀ s, ∀ w ∈ l, P s → P (f s w) := fun s w inside => kept s w (List.mem_cons_of_mem v inside)
      obtain ⟨mid, last, same, holds'⟩ := ih ownTail keptTail distinct later (kept s v List.mem_cons_self holds)
      have other : u ≠ v := fun equal => absent (equal ▸ later)
      exact ⟨mid, last, same.trans (own s v List.mem_cons_self other), holds'⟩

end Sweep

/-! Loops over a list of work, where what an item leaves to do is smaller than the item. -/

namespace WorkList

variable {σ : Type u} {α : Type v} [Preorder α] {r : α} {before mid after : Multiset α}

/-- Nothing is added but items below `r`. -/
def Grown (r : α) (before after : Multiset α) : Prop := ∃ more, after ≤ before + more ∧ ∀ y ∈ more, y < r

theorem Grown.of_le (less : after ≤ before) : Grown r before after := ⟨0, by rwa [add_zero], nofun⟩

theorem Grown.trans (first : Grown r before mid) (second : Grown r mid after) : Grown r before after := by
  obtain ⟨more, le, below⟩ := first
  obtain ⟨more', le', below'⟩ := second
  refine ⟨more + more', ?_, fun y member => (Multiset.mem_add.mp member).elim (below y) (below' y)⟩
  rw [← add_assoc]
  exact le'.trans (add_le_add_left le more')

/-- One item is taken out, and nothing is added but smaller ones. -/
def Spent (before after : Multiset α) : Prop := ∃ r rest, before = r ::ₘ rest ∧ Grown r rest after

theorem Spent.less (spent : Spent before after) : Multiset.IsDershowitzMannaLT after before := by
  classical
  obtain ⟨r, rest, rfl, more, le, below⟩ := spent
  refine ⟨after ∩ rest, after - rest, r ::ₘ (rest - after), Multiset.cons_ne_zero, ?_, ?_, fun y member => ?_⟩
  · rw [add_comm, Multiset.sub_add_inter]
  · rw [Multiset.add_cons, add_comm, Multiset.inter_comm, Multiset.sub_add_inter]
  · have added : after - rest ≤ more := by
      rw [Multiset.sub_le_iff_le_add, add_comm]
      exact le
    exact ⟨r, Multiset.mem_cons_self r _, below y (Multiset.mem_of_le added member)⟩

/-- The loop stops, from a state that meets its invariant. -/
theorem stops [WellFoundedLT α] (turn : σ → σ) (Running : σ → Prop) {Inv : σ → Prop} (work : σ → Multiset α)
    (kept : ∀ s, Inv s → Running s → Inv (turn s)) (spends : ∀ s, Inv s → Running s → Running (turn s) → Spent (work s) (work (turn s)))
    {s : σ} (holds : Inv s) : ∃ n, ¬ Running (turn^[n] s) := by
  induction s using (InvImage.wf work Multiset.wellFounded_isDershowitzMannaLT).induction with
  | _ s ih =>
    by_cases running : Running s
    · by_cases next : Running (turn s)
      · obtain ⟨n, stopped⟩ := ih (turn s) (spends s holds running next).less (kept s holds running)
        exact ⟨n + 1, stopped⟩
      · exact ⟨1, next⟩
    · exact ⟨0, running⟩

end WorkList
