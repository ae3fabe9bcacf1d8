import Mathlib.Data.List.Infix
import Mathlib.Data.List.Nodup
import Mathlib.Tactic.Common

universe u v

namespace LoopErase

variable {α : Type u} {β : Type v} [DecidableEq β] (f : α → β)

/-- The last place of a walk with a given name, and what follows it. -/
def lastVisit (name : β) : List α → Option (α × List α)
  | [] => none
  | y :: l => (lastVisit name l).orElse fun _ => if f y = name then some (y, l) else none

variable {f} {name : β} {x y : α} {l rest : List α}

theorem lastVisit_eq_none : lastVisit f name l = none ↔ name ∉ l.map f := by
  induction l with
  | nil => exact iff_of_true rfl List.not_mem_nil
  | cons z l ih =>
    rw [lastVisit, List.map_cons, List.mem_cons, not_or, ← ih]
    cases lastVisit f name l with
    | some other => exact iff_of_false (Option.some_ne_none _) fun both => Option.some_ne_none _ both.2
    | none =>
      dsimp only [Option.orElse]
      split_ifs with here
      · exact iff_of_false not_false fun both => both.1 here.symm
      · exact iff_of_true rfl ⟨fun equal => here equal.symm, rfl⟩

theorem lastVisit_spec (found : lastVisit f name l = some (y, rest)) :
    f y = name ∧ (∃ before, l = before ++ y :: rest) ∧ name ∉ rest.map f := by
  induction l with
  | nil => cases found
  | cons z l ih =>
    rw [lastVisit] at found
    cases later : lastVisit f name l with
    | some other =>
      rw [later] at found
      cases Option.some.inj found
      obtain ⟨named, ⟨before, split⟩, last⟩ := ih later
      exact ⟨named, ⟨z :: before, congrArg (z :: ·) split⟩, last⟩
    | none =>
      rw [later] at found
      dsimp only [Option.orElse] at found
      split_ifs at found with here
      cases Option.some.inj found
      exact ⟨here, ⟨[], rfl⟩, lastVisit_eq_none.mp later⟩

theorem lastVisit_length (found : lastVisit f name l = some (y, rest)) : rest.length < l.length := by
  obtain ⟨_, ⟨before, rfl⟩, _⟩ := lastVisit_spec found
  rw [List.length_append, List.length_cons]
  omega

variable (f)

/-- A walk without its loops: every place is followed by what follows its last visit. -/
def loopErase : List α → List α
  | [] => []
  | x :: l =>
    match _found : lastVisit f (f x) l with
    | some visit => visit.1 :: loopErase visit.2
    | none => x :: loopErase l
termination_by l => l.length
decreasing_by
  · exact Nat.lt_succ_of_lt (lastVisit_length _found)
  · exact Nat.lt_succ_self _

variable {f}

theorem loopErase_nil : loopErase f [] = [] := by rw [loopErase]

/-- The first place of a walk is left at its last visit. -/
theorem loopErase_cons (x : α) (l : List α) : ∃ before y rest, x :: l = before ++ y :: rest ∧ f y = f x ∧ f y ∉ rest.map f ∧
    loopErase f (x :: l) = y :: loopErase f rest := by
  cases found : lastVisit f (f x) l with
  | some visit =>
    obtain ⟨named, ⟨before, split⟩, last⟩ := lastVisit_spec found
    refine ⟨x :: before, visit.1, visit.2, congrArg (x :: ·) split, named, named ▸ last, ?_⟩
    rw [loopErase, found]
  | none =>
    refine ⟨[], x, l, rfl, rfl, lastVisit_eq_none.mp found, ?_⟩
    rw [loopErase, found]

theorem lastVisit_append (before : List α) (named : f y = name) (last : name ∉ rest.map f) :
    lastVisit f name (before ++ y :: rest) = some (y, rest) := by
  induction before with
  | nil =>
    rw [List.nil_append, lastVisit, lastVisit_eq_none.mpr last]
    exact if_pos named
  | cons z before ih =>
    rw [List.cons_append, lastVisit, ih]
    rfl

/-- However the last visit to the first place is found. -/
theorem loopErase_eq (before : List α) (first : ∀ x ∈ (before ++ y :: rest).head?, f x = f y) (last : f y ∉ rest.map f) :
    loopErase f (before ++ y :: rest) = y :: loopErase f rest := by
  cases before with
  | nil => rw [List.nil_append, loopErase, lastVisit_eq_none.mpr last]
  | cons x before =>
    have named : f y = f x := (first x rfl).symm
    rw [List.cons_append, loopErase, lastVisit_append before named (named ▸ last)]

/-- Induction along the places that are left. -/
theorem loopErase_induct {motive : List α → List α → Prop} (nil : motive [] [])
    (cut : ∀ before y rest out, (∀ x ∈ (before ++ y :: rest).head?, f x = f y) → f y ∉ rest.map f → motive rest out →
      motive (before ++ y :: rest) (y :: out)) (l : List α) : motive l (loopErase f l) := by
  induction length : l.length using Nat.strong_induction_on generalizing l with
  | _ n ih =>
    cases l with
    | nil =>
      rw [loopErase_nil]
      exact nil
    | cons x l =>
      obtain ⟨before, y, rest, split, same, last, erased⟩ := loopErase_cons (f := f) x l
      have shorter : rest.length < n := by
        rw [← length, split, List.length_append, List.length_cons]
        omega
      rw [erased, split]
      refine cut before y rest _ (fun z first => ?_) last (ih rest.length shorter rest rfl)
      rw [← split] at first
      cases Option.some.inj first
      exact same.symm

theorem loopErase_sublist (l : List α) : List.Sublist (loopErase f l) l := by
  refine loopErase_induct (f := f) (motive := fun l out => List.Sublist out l) .slnil (fun before y rest out _ _ less => ?_) l
  exact (less.cons_cons y).trans (List.sublist_append_right before _)

theorem loopErase_nodup (l : List α) : ((loopErase f l).map f).Nodup := by
  refine (loopErase_induct (f := f) (motive := fun l out => List.Sublist out l ∧ (out.map f).Nodup) ⟨.slnil, List.nodup_nil⟩
    (fun before y rest out _ last both => ?_) l).2
  obtain ⟨less, once⟩ := both
  refine ⟨(less.cons_cons y).trans (List.sublist_append_right before _), List.nodup_cons.mpr ⟨fun again => last ?_, once⟩⟩
  exact (less.map f).subset again

theorem loopErase_head (l : List α) : ((loopErase f l).map f).head? = (l.map f).head? := by
  refine loopErase_induct (f := f) (motive := fun l out => (out.map f).head? = (l.map f).head?) rfl
    (fun before y rest out first _ _ => ?_) l
  rw [List.head?_map, List.head?_map]
  cases before with
  | nil => rfl
  | cons x before => exact congrArg some (first x rfl).symm

theorem loopErase_getLast (l : List α) : (loopErase f l).getLast? = l.getLast? := by
  refine loopErase_induct (f := f) (motive := fun l out => out.getLast? = l.getLast?) rfl (fun before y rest out _ _ same => ?_) l
  rw [List.getLast?_append_of_ne_nil before (List.cons_ne_nil y rest), List.getLast?_cons, List.getLast?_cons, same]

/-- Two places of which one follows the other do so in the walk, by their names. -/
theorem loopErase_infix (l : List α) (a b : β) (link : [a, b] <:+: (loopErase f l).map f) : [a, b] <:+: l.map f := by
  revert link
  refine (loopErase_induct (f := f) (motive := fun l out => (out.map f).head? = (l.map f).head? ∧
    ([a, b] <:+: out.map f → [a, b] <:+: l.map f)) ⟨rfl, id⟩ (fun before y rest out first last both => ?_) l).2
  obtain ⟨heads, links⟩ := both
  constructor
  · rw [List.head?_map, List.head?_map]
    cases before with
    | nil => rfl
    | cons x before => exact congrArg some (first x rfl).symm
  · rw [List.map_cons, List.map_append, List.map_cons, List.infix_cons_iff]
    rintro (start | later)
    · refine List.infix_append_of_infix_right (List.IsPrefix.isInfix ?_)
      obtain ⟨tail, split⟩ := start
      obtain ⟨rfl, onward⟩ := List.cons.inj split
      rw [← onward] at heads
      obtain ⟨tail', rest'⟩ := List.head?_eq_some_iff.mp heads.symm
      exact ⟨tail', by rw [rest']; rfl⟩
    · exact List.infix_append_of_infix_right ((links later).trans (List.suffix_cons _ _).isInfix)

end LoopErase
