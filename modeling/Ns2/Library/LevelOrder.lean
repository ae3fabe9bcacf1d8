import Mathlib.Order.Lattice
import Mathlib.Data.List.Basic

universe u v

namespace LevelOrder

variable {ι : Type u} {α : Type v} [LinearOrder α]

/-- In a round from the highest level down `next` is to come after `this`: no other active one
has a level from that of `this` down to that of `next`, and the highest comes after the lowest. -/
structure Follows (active : ι → Prop) (S : ι → α) (this next : ι) : Prop where
  found : active next
  other : next = this → ∀ i, active i → i = this
  order : (S next ≤ S this ∧ ∀ i, active i → i ≠ this → S i ≤ S next ∨ S this < S i) ∨
    ((∀ i, active i → i ≠ this → S this < S i) ∧ ∀ i, active i → S i ≤ S next)

/-- The levels from the highest down, with that of `this` between the rest. -/
structure Split (S : ι → α) (this : ι) (others : List ι) (l r : List α) : Prop where
  perm : (l ++ r).Perm (others.map S)
  sorted : (l ++ S this :: r).Pairwise (· ≥ ·)
  apart : this ∉ others

section Splits

variable {S : ι → α} {this next : ι} {others : List ι} {l r : List α} {low high : α}

theorem Split.above (split : Split S this others l r) : ∀ x ∈ l, S this ≤ x := fun x member =>
  (List.pairwise_append.mp split.sorted).2.2 x member (S this) List.mem_cons_self

theorem Split.below (split : Split S this others l r) : ∀ x ∈ r, x ≤ S this :=
  (List.pairwise_cons.mp (List.pairwise_append.mp split.sorted).2.1).1

theorem Split.first (split : Split S this others (high :: l) r) : ∀ i ∈ others, S i ≤ high := by
  intro i member
  rcases List.mem_append.mp (split.perm.symm.subset (List.mem_map_of_mem member)) with inL | inR
  · rcases List.mem_cons.mp inL with same | later
    · exact same.le
    · exact (List.pairwise_cons.mp split.sorted).1 _ (List.mem_append_left _ later)
  · exact (split.below _ inR).trans (split.above high List.mem_cons_self)

/-- Whatever is not above `this` is not above the next level down. -/
theorem Split.second (split : Split S this others l (low :: r)) : ∀ i ∈ others, S i ≤ low ∨ S this ≤ S i := by
  intro i member
  rcases List.mem_append.mp (split.perm.symm.subset (List.mem_map_of_mem member)) with inL | inR
  · exact Or.inr (split.above _ inL)
  · rcases List.mem_cons.mp inR with same | later
    · exact Or.inl same.le
    · have rest := (List.pairwise_cons.mp (List.pairwise_append.mp split.sorted).2.1).2
      exact Or.inl ((List.pairwise_cons.mp rest).1 _ later)

theorem Split.mem (split : Split S this others l r) {x : α} (member : x ∈ l ∨ x ∈ r) : ∃ i ∈ others, S i = x :=
  List.mem_map.mp (split.perm.subset (List.mem_append.mpr member))

/-- The next level down is taken. -/
theorem Split.follows_lower (split : Split S this others l (low :: r)) (inside : next ∈ others) (level : S next = low) :
    Follows (· ∈ others) S this next ↔ low = S this ∨ ∀ i ∈ others, S i ≠ S this := by
  have different : next ≠ this := fun same => split.apart (same ▸ inside)
  have lower := split.below low List.mem_cons_self
  constructor
  · intro follows
    by_contra none
    obtain ⟨less, i, member, same⟩ : low ≠ S this ∧ ∃ i ∈ others, S i = S this := by simpa using none
    have strict := lt_of_le_of_ne lower less
    rcases follows.order with ⟨-, passed⟩ | ⟨last, -⟩
    · rcases passed i member fun own => split.apart (own ▸ member) with under | beyond
      · exact absurd (level ▸ under) (not_le.mpr (same ▸ strict))
      · exact absurd same beyond.ne'
    · exact absurd (last next inside different) (not_lt.mpr (level ▸ lower))
  · intro enough
    refine ⟨inside, fun same => absurd same different, Or.inl ⟨level ▸ lower, fun i member _ => ?_⟩⟩
    rw [level]
    rcases enough with tied | apart
    · rw [tied]
      exact le_or_gt _ _
    · exact (split.second i member).imp_right fun least => lt_of_le_of_ne least (apart i member).symm

/-- The highest level is taken. -/
theorem Split.follows_highest (split : Split S this others (high :: l) r) (inside : next ∈ others) (level : S next = high) :
    Follows (· ∈ others) S this next ↔ high = S this ∨ r = [] ∧ ∀ i ∈ others, S i ≠ S this := by
  have different : next ≠ this := fun same => split.apart (same ▸ inside)
  have most := split.above high List.mem_cons_self
  constructor
  · intro follows
    rcases follows.order with ⟨lower, -⟩ | ⟨last, -⟩
    · exact Or.inl (le_antisymm (level ▸ lower) most)
    · refine Or.inr ⟨List.eq_nil_iff_forall_not_mem.mpr fun x member => ?_, fun i member => ?_⟩
      · obtain ⟨i, inOthers, same⟩ := split.mem (Or.inr member)
        have above := last i inOthers fun own => split.apart (own ▸ inOthers)
        exact absurd above (not_lt.mpr (same ▸ split.below x member))
      · exact (last i member fun own => split.apart (own ▸ member)).ne'
  · rintro (tied | ⟨rfl, apart⟩)
    · refine ⟨inside, fun same => absurd same different, Or.inl ⟨(level.trans tied).le, fun i _ _ => ?_⟩⟩
      rw [level, tied]
      exact le_or_gt _ _
    · refine ⟨inside, fun same => absurd same different, Or.inr ⟨fun i member _ => ?_, fun i member => ?_⟩⟩
      · have inL := split.perm.symm.subset (List.mem_map_of_mem member)
        rw [List.append_nil] at inL
        exact lt_of_le_of_ne (split.above _ inL) (apart i member).symm
      · exact (split.first i member).trans_eq level.symm

/-- Where `this` stays active, the level after its own, round the table, is taken. A search for its own level finds `this`. -/
theorem Split.follows_stay (split : Split S this others l r) (inside : next = this ∨ next ∈ others)
    (level : (r ++ l ++ [S this]).head? = some (S next)) (own : S next = S this → next = this) :
    Follows (fun i => i = this ∨ i ∈ others) S this next ↔ ∀ i ∈ others, S i ≠ S this := by
  have ne : ∀ i ∈ others, i ≠ this := fun i member same => split.apart (same ▸ member)
  constructor
  · intro follows i member same
    rcases follows.order with ⟨lower, passed⟩ | ⟨last, -⟩
    · rcases passed i (Or.inr member) (ne i member) with under | beyond
      · have alone := follows.other (own (le_antisymm lower (same ▸ under)))
        exact ne i member (alone i (Or.inr member))
      · exact absurd same beyond.ne'
    · exact absurd same (last i (Or.inr member) (ne i member)).ne'
  · intro apart
    cases r with
    | cons low r =>
      have value : low = S next := Option.some.inj level
      obtain ⟨j, inOthers, same⟩ := split.mem (Or.inr (List.mem_cons_self : low ∈ low :: r))
      have less : low < S this := lt_of_le_of_ne (split.below low List.mem_cons_self) (same ▸ apart j inOthers)
      refine ⟨inside, fun same => ?_, Or.inl ⟨value ▸ less.le, ?_⟩⟩
      · exact absurd (value.trans (congrArg S same)) less.ne
      · rintro i (same | member) different
        · exact absurd same different
        · exact (split.second i member).imp value.le.trans' fun least => lt_of_le_of_ne least (apart i member).symm
    | nil =>
      cases l with
      | nil =>
        have none : others = [] := List.map_eq_nil_iff.mp split.perm.nil_eq.symm
        have same := own (Option.some.inj level).symm
        subst none
        have alone : ∀ i, (i = this ∨ i ∈ []) → i = this := fun i member => member.resolve_right List.not_mem_nil
        exact ⟨inside, fun _ => alone, Or.inl ⟨by rw [same], fun i member different => absurd (alone i member) different⟩⟩
      | cons high l =>
        have value : high = S next := Option.some.inj level
        obtain ⟨j, inOthers, same⟩ := split.mem (Or.inl (List.mem_cons_self : high ∈ high :: l))
        have more : S this < high := lt_of_le_of_ne (split.above high List.mem_cons_self) (same ▸ (apart j inOthers).symm)
        refine ⟨inside, fun same => ?_, Or.inr ⟨?_, ?_⟩⟩
        · exact absurd (value.trans (congrArg S same)) more.ne'
        · rintro i (same | member) different
          · exact absurd same different
          · have inL := split.perm.symm.subset (List.mem_map_of_mem member)
            rw [List.append_nil] at inL
            exact lt_of_le_of_ne (split.above _ inL) (apart i member).symm
        · rintro i (rfl | member)
          · exact value ▸ more.le
          · exact (split.first i member).trans_eq value

end Splits

end LevelOrder
