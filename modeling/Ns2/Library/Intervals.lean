import Mathlib.Data.Int.Interval
import Mathlib.Data.Set.Card
import Mathlib.Order.Interval.Set.Disjoint
import Mathlib.Algebra.BigOperators.Group.List.Basic
import Mathlib.Algebra.Order.Ring.Int
import Mathlib.Data.List.Chain
import Mathlib.Tactic.Common

universe u v

/-! Sorted lists of half-open intervals `[lo, hi)` that neither overlap nor
adjoin one another, as sets of points. -/

namespace Intervals

variable {α : Type u} {β : Type v} [LinearOrder α] {lo hi : β → α} {l : List β} {start fin : α} {m : β}

/-- The intervals are nonempty, increasing and never adjacent. -/
structure Separated (lo hi : β → α) (l : List β) : Prop where
  nonempty : ∀ b ∈ l, lo b < hi b
  apart : l.Pairwise fun a b => hi a < lo b

def cover (lo hi : β → α) (l : List β) : Set α := {k | ∃ b ∈ l, lo b ≤ k ∧ k < hi b}

theorem cover_cons (b : β) : cover lo hi (b :: l) = Set.Ico (lo b) (hi b) ∪ cover lo hi l := by
  ext k
  simp [cover, Set.mem_Ico]

theorem Separated.nil : Separated lo hi ([] : List β) where
  nonempty _ member := absurd member List.not_mem_nil
  apart := .nil

theorem Separated.sublist {l' : List β} (separated : Separated lo hi l) (sub : l'.Sublist l) :
    Separated lo hi l' where
  nonempty b member := separated.nonempty b (sub.subset member)
  apart := separated.apart.sublist sub

theorem Separated.lo_lt (separated : Separated lo hi l) : l.Pairwise fun a b => lo a < lo b :=
  separated.apart.imp_of_mem fun {a _} member _ before => (separated.nonempty a member).trans before

theorem Separated.hi_lt (separated : Separated lo hi l) : l.Pairwise fun a b => hi a < hi b :=
  separated.apart.imp_of_mem fun {_ b} _ member before => before.trans (separated.nonempty b member)

/-- The intervals are increasing and never adjacent, but some may be empty. -/
structure Spaced (lo hi : β → α) (l : List β) : Prop where
  proper : ∀ b ∈ l, lo b ≤ hi b
  apart : l.Pairwise fun a b => hi a < lo b

theorem Separated.spaced (separated : Separated lo hi l) : Spaced lo hi l :=
  ⟨fun b member => (separated.nonempty b member).le, separated.apart⟩

theorem Spaced.nil : Spaced lo hi ([] : List β) := Separated.nil.spaced

theorem Spaced.sublist {l' : List β} (spaced : Spaced lo hi l) (sub : l'.Sublist l) : Spaced lo hi l' where
  proper b member := spaced.proper b (sub.subset member)
  apart := spaced.apart.sublist sub

theorem Spaced.hi_lt (spaced : Spaced lo hi l) : l.Pairwise fun a b => hi a < hi b :=
  spaced.apart.imp_of_mem fun {_ b} _ member before => before.trans_le (spaced.proper b member)

theorem Spaced.lo_lt (spaced : Spaced lo hi l) : l.Pairwise fun a b => lo a < lo b :=
  spaced.apart.imp_of_mem fun {a _} member _ before => (spaced.proper a member).trans_lt before

theorem spaced_map {γ : Type v} {f : γ → β} {l : List γ} : Spaced lo hi (l.map f) ↔ Spaced (lo ∘ f) (hi ∘ f) l :=
  ⟨fun spaced => ⟨List.forall_mem_map.mp spaced.proper, List.pairwise_map.mp spaced.apart⟩,
    fun spaced => ⟨List.forall_mem_map.mpr spaced.proper, List.pairwise_map.mpr spaced.apart⟩⟩

/-- One interval in the middle, seen from there. -/
theorem spaced_middle {low high : List β} {x : β} : Spaced lo hi (low ++ x :: high) ↔
    Spaced lo hi low ∧ Spaced lo hi high ∧ lo x ≤ hi x ∧ (∀ a ∈ low, hi a < lo x) ∧ ∀ b ∈ high, hi x < lo b := by
  constructor
  · intro spaced
    obtain ⟨_, later, between⟩ := List.pairwise_append.mp spaced.apart
    exact ⟨spaced.sublist (List.sublist_append_left low _), spaced.sublist (by simp), spaced.proper x (by simp),
      fun a member => between a member x List.mem_cons_self, (List.pairwise_cons.mp later).1⟩
  · rintro ⟨first, last, proper, below, above⟩
    refine ⟨fun b member => ?_, List.pairwise_append.mpr ⟨first.apart, List.pairwise_cons.mpr ⟨above, last.apart⟩, ?_⟩⟩
    · rcases List.mem_append.mp member with early | late
      · exact first.proper b early
      · rcases List.mem_cons.mp late with rfl | later
        · exact proper
        · exact last.proper b later
    · intro a early b late
      rcases List.mem_cons.mp late with rfl | later
      · exact below a early
      · exact (below a early).trans_le (proper.trans (above b later).le)

theorem spaced_cons {high : List β} {x : β} : Spaced lo hi (x :: high) ↔ Spaced lo hi high ∧ lo x ≤ hi x ∧ ∀ b ∈ high, hi x < lo b := by
  have middle : Spaced lo hi ([] ++ x :: high) ↔ _ := spaced_middle
  rw [List.nil_append] at middle
  rw [middle]
  exact ⟨fun parts => ⟨parts.2.1, parts.2.2.1, parts.2.2.2.2⟩, fun parts => ⟨⟨by simp, .nil⟩, parts.1, parts.2.1, by simp, parts.2.2⟩⟩

theorem cover_map {γ : Type v} (f : γ → β) (l : List γ) : cover lo hi (l.map f) = cover (lo ∘ f) (hi ∘ f) l := by
  ext k
  simp [cover]

theorem Separated.map {γ : Type v} {f : γ → β} {l : List γ} (separated : Separated (lo ∘ f) (hi ∘ f) l) :
    Separated lo hi (l.map f) where
  nonempty := List.forall_mem_map.mpr separated.nonempty
  apart := List.pairwise_map.mpr separated.apart

/-- What is left of the intervals from `bound` on. -/
theorem Separated.cut (separated : Separated lo hi l) (bound : α) :
    Separated (fun b => max bound (lo b)) hi (l.filter fun b => bound < hi b) where
  nonempty b member := by
    obtain ⟨inside, after⟩ := List.mem_filter.mp member
    exact max_lt (of_decide_eq_true after) (separated.nonempty b inside)
  apart := (separated.apart.sublist List.filter_sublist).imp fun before => lt_max_of_lt_right before

theorem cover_cut (bound : α) (l : List β) :
    cover (fun b => max bound (lo b)) hi (l.filter fun b => bound < hi b) = cover lo hi l \ Set.Iio bound := by
  ext k
  constructor
  · rintro ⟨b, member, low, high⟩
    obtain ⟨bounded, low⟩ := max_le_iff.mp low
    exact ⟨⟨b, (List.mem_filter.mp member).1, low, high⟩, not_lt.mpr bounded⟩
  · rintro ⟨⟨b, member, low, high⟩, bounded⟩
    have bounded := not_lt.mp bounded
    exact ⟨b, List.mem_filter.mpr ⟨member, decide_eq_true (bounded.trans_lt high)⟩, max_le bounded low, high⟩

/-- A property that is passed on to everything earlier holds of a first part of the list. -/
theorem split_of_pairwise {R : β → β → Prop} (p : β → Prop) (pairs : l.Pairwise R)
    (back : ∀ a b, R a b → p b → p a) : ∃ first rest, l = first ++ rest ∧ (∀ b ∈ first, p b) ∧ ∀ b ∈ rest, ¬p b := by
  induction l with
  | nil => exact ⟨[], [], rfl, by simp, by simp⟩
  | cons b l ih =>
    obtain ⟨earlier, later⟩ := List.pairwise_cons.mp pairs
    by_cases holds : p b
    · obtain ⟨first, rest, rfl, inside, outside⟩ := ih later
      exact ⟨b :: first, rest, rfl, List.forall_mem_cons.mpr ⟨holds, inside⟩, outside⟩
    · refine ⟨[], b :: l, rfl, by simp, List.forall_mem_cons.mpr ⟨holds, fun c member claimed => ?_⟩⟩
      exact holds (back b c (earlier c member) claimed)

/-- The intervals below `start`, those that meet `[start, fin)`, and those above. -/
theorem Separated.split (separated : Separated lo hi l) (start fin : α) :
    ∃ low mid high, l = low ++ mid ++ high ∧ (∀ b ∈ low, hi b ≤ start) ∧
      (∀ b ∈ mid, start < hi b ∧ lo b < fin) ∧ ∀ b ∈ high, start < hi b ∧ fin ≤ lo b := by
  obtain ⟨low, rest, rfl, below, upper⟩ := split_of_pairwise (fun b => hi b ≤ start) separated.hi_lt
    fun a b less upTo => less.le.trans upTo
  have remaining := separated.sublist (List.sublist_append_right low rest)
  obtain ⟨mid, high, rfl, meets, above⟩ := split_of_pairwise (fun b => lo b < fin) remaining.lo_lt
    fun a b less upTo => less.trans upTo
  refine ⟨low, mid, high, by rw [List.append_assoc], below, fun b member => ?_, fun b member => ?_⟩
  · exact ⟨not_le.mp (upper b (List.mem_append_left high member)), meets b member⟩
  · exact ⟨not_le.mp (upper b (List.mem_append_right mid member)), not_lt.mp (above b member)⟩

/-- Of the intervals that meet `[start, fin)` and are not inside it, the first may
reach out to the left and the last to the right. -/
theorem Separated.meeting_cases (separated : Separated lo hi l) (meets : ∀ b ∈ l, start < hi b ∧ lo b < fin)
    (outside : ∀ b ∈ l, ¬(start ≤ lo b ∧ hi b ≤ fin)) :
    l = [] ∨ (∃ x, l = [x]) ∨ ∃ x y, l = [x, y] ∧ lo x < start ∧ hi x < lo y ∧ fin < hi y := by
  match l with
  | [] => exact Or.inl rfl
  | [x] => exact Or.inr (Or.inl ⟨x, rfl⟩)
  | x :: y :: rest =>
    have apart := List.pairwise_cons.mp separated.apart
    have before := apart.1 y (by simp)
    have startX : lo x < start := by
      by_contra late
      exact outside x (by simp) ⟨not_lt.mp late, (before.trans (meets y (by simp)).2).le⟩
    have endY : fin < hi y := by
      by_contra early
      exact outside y (by simp) ⟨((meets x (by simp)).1.trans before).le, not_lt.mp early⟩
    match rest with
    | [] => exact Or.inr (Or.inr ⟨x, y, rfl, startX, before, endY⟩)
    | z :: rest =>
      have next := (List.pairwise_cons.mp apart.2).1 z (by simp)
      exact absurd (endY.trans next) (not_lt.mpr (meets z (by simp)).2.le)

def Touches (lo hi : β → α) (start fin : α) (b : β) : Prop := start ≤ hi b ∧ lo b ≤ fin

instance Touches.decidable (lo hi : β → α) (start fin : α) (b : β) : Decidable (Touches lo hi start fin b) :=
  inferInstanceAs (Decidable (_ ∧ _))

/-- The list `l` with `[start, fin)` put in: `m` stands for it and for everything it touches. -/
structure Absorbs (lo hi : β → α) (start fin : α) (l : List β) (m : β) (result : List β) : Prop where
  result : result = (l.filter fun b => hi b < start) ++ m :: l.filter fun b => fin < lo b
  left : lo m ≤ start
  right : fin ≤ hi m
  inside : ∀ b ∈ l, Touches lo hi start fin b → lo m ≤ lo b ∧ hi b ≤ hi m
  leftmost : lo m = start ∨ ∃ b ∈ l, Touches lo hi start fin b ∧ lo b = lo m
  rightmost : hi m = fin ∨ ∃ b ∈ l, Touches lo hi start fin b ∧ hi b = hi m

/-- Putting an interval in between the parts of a list that do not touch it. -/
theorem Absorbs.of_parts {low mid high : List β} (nonempty : start < fin) (below : ∀ b ∈ low, lo b < hi b ∧ hi b < start)
    (touching : ∀ b ∈ mid, Touches lo hi start fin b) (above : ∀ b ∈ high, lo b < hi b ∧ fin < lo b)
    (left : lo m ≤ start) (right : fin ≤ hi m) (inside : ∀ b ∈ mid, lo m ≤ lo b ∧ hi b ≤ hi m)
    (leftmost : lo m = start ∨ ∃ b ∈ mid, lo b = lo m) (rightmost : hi m = fin ∨ ∃ b ∈ mid, hi b = hi m) :
    Absorbs lo hi start fin (low ++ mid ++ high) m (low ++ m :: high) where
  result := by
    have lowKept : low.filter (fun b => hi b < start) = low :=
      List.filter_eq_self.mpr fun b member => by simpa using (below b member).2
    have lowAbove : low.filter (fun b => fin < lo b) = [] := List.filter_eq_nil_iff.mpr fun b member => by
      obtain ⟨proper, before⟩ := below b member
      simpa using (proper.trans (before.trans nonempty)).le
    have midBelow : mid.filter (fun b => hi b < start) = [] := List.filter_eq_nil_iff.mpr fun b member => by
      simpa using (touching b member).1
    have midAbove : mid.filter (fun b => fin < lo b) = [] := List.filter_eq_nil_iff.mpr fun b member => by
      simpa using (touching b member).2
    have highBelow : high.filter (fun b => hi b < start) = [] := List.filter_eq_nil_iff.mpr fun b member => by
      obtain ⟨proper, after⟩ := above b member
      simpa using (nonempty.trans (after.trans proper)).le
    have highKept : high.filter (fun b => fin < lo b) = high :=
      List.filter_eq_self.mpr fun b member => by simpa using (above b member).2
    simp only [List.filter_append, lowKept, lowAbove, midBelow, midAbove, highBelow, highKept, List.append_nil,
      List.nil_append]
  left := left
  right := right
  inside b member touches := by
    rcases List.mem_append.mp member with early | late
    · rcases List.mem_append.mp early with low | mid
      · exact absurd (below b low).2 (not_lt.mpr touches.1)
      · exact inside b mid
    · exact absurd (above b late).2 (not_lt.mpr touches.2)
  leftmost := leftmost.imp_right fun ⟨b, member, same⟩ =>
    ⟨b, List.mem_append_left high (List.mem_append_right low member), touching b member, same⟩
  rightmost := rightmost.imp_right fun ⟨b, member, same⟩ =>
    ⟨b, List.mem_append_left high (List.mem_append_right low member), touching b member, same⟩

/-- Intervals inside `[start, fin)` may be dropped first. -/
theorem Absorbs.of_filter {result : List β} (nonempty : ∀ b ∈ l, lo b < hi b)
    (absorbs : Absorbs lo hi start fin (l.filter fun b => ¬(start ≤ lo b ∧ hi b ≤ fin)) m result) :
    Absorbs lo hi start fin l m result where
  result := by
    have below : ∀ b ∈ l, (decide (hi b < start) && decide ¬(start ≤ lo b ∧ hi b ≤ fin)) = decide (hi b < start) := by
      intro b member
      have proper := nonempty b member
      rw [← Bool.decide_and, decide_eq_decide, and_iff_left_iff_imp]
      exact fun before within => absurd (within.1.trans_lt proper) (not_lt.mpr before.le)
    have above : ∀ b ∈ l, (decide (fin < lo b) && decide ¬(start ≤ lo b ∧ hi b ≤ fin)) = decide (fin < lo b) := by
      intro b member
      have proper := nonempty b member
      rw [← Bool.decide_and, decide_eq_decide, and_iff_left_iff_imp]
      exact fun after within => absurd (proper.trans_le within.2) (not_lt.mpr after.le)
    rw [absorbs.result, List.filter_filter, List.filter_filter, List.filter_congr below, List.filter_congr above]
  left := absorbs.left
  right := absorbs.right
  inside b member touches := by
    by_cases within : start ≤ lo b ∧ hi b ≤ fin
    · exact ⟨absorbs.left.trans within.1, within.2.trans absorbs.right⟩
    · exact absorbs.inside b (List.mem_filter.mpr ⟨member, decide_eq_true within⟩) touches
  leftmost := absorbs.leftmost.imp_right fun ⟨b, member, found⟩ => ⟨b, (List.mem_filter.mp member).1, found⟩
  rightmost := absorbs.rightmost.imp_right fun ⟨b, member, found⟩ => ⟨b, (List.mem_filter.mp member).1, found⟩

variable {result : List β}

theorem Absorbs.mem (absorbs : Absorbs lo hi start fin l m result) {b : β} :
    b ∈ result ↔ (b ∈ l ∧ hi b < start) ∨ b = m ∨ b ∈ l ∧ fin < lo b := by
  simp [absorbs.result, List.mem_filter]

/-- The least start of `[start, fin)` and of all that it touches. -/
def hullLo (lo hi : β → α) (start fin : α) : List β → α
  | [] => start
  | b :: l => if Touches lo hi start fin b then min (lo b) (hullLo lo hi start fin l) else hullLo lo hi start fin l

/-- The greatest end of `[start, fin)` and of all that it touches. -/
def hullHi (lo hi : β → α) (start fin : α) : List β → α
  | [] => fin
  | b :: l => if Touches lo hi start fin b then max (hi b) (hullHi lo hi start fin l) else hullHi lo hi start fin l

theorem lt_hullLo {k : α} :
    k < hullLo lo hi start fin l ↔ k < start ∧ ∀ b ∈ l, Touches lo hi start fin b → k < lo b := by
  induction l with
  | nil => simp [hullLo]
  | cons b l ih =>
    rw [hullLo, List.forall_mem_cons]
    split_ifs with touches
    · rw [lt_min_iff, ih, and_left_comm]
      exact and_congr_right fun _ => and_congr_left fun _ => (imp_iff_right touches).symm
    · rw [ih]
      exact and_congr_right fun _ => (and_iff_right fun claimed => absurd claimed touches).symm

theorem hullHi_lt {k : α} :
    hullHi lo hi start fin l < k ↔ fin < k ∧ ∀ b ∈ l, Touches lo hi start fin b → hi b < k := by
  induction l with
  | nil => simp [hullHi]
  | cons b l ih =>
    rw [hullHi, List.forall_mem_cons]
    split_ifs with touches
    · rw [max_lt_iff, ih, and_left_comm]
      exact and_congr_right fun _ => and_congr_left fun _ => (imp_iff_right touches).symm
    · rw [ih]
      exact and_congr_right fun _ => (and_iff_right fun claimed => absurd claimed touches).symm

theorem Absorbs.lo_eq (absorbs : Absorbs lo hi start fin l m result) : lo m = hullLo lo hi start fin l := by
  refine eq_of_forall_lt_iff fun k => ?_
  rw [lt_hullLo]
  constructor
  · intro less
    exact ⟨less.trans_le absorbs.left, fun b member touches => less.trans_le (absorbs.inside b member touches).1⟩
  · rintro ⟨less, all⟩
    rcases absorbs.leftmost with same | ⟨b, member, touches, same⟩
    · exact same ▸ less
    · exact same ▸ all b member touches

theorem Absorbs.hi_eq (absorbs : Absorbs lo hi start fin l m result) : hi m = hullHi lo hi start fin l := by
  refine eq_of_forall_gt_iff fun k => ?_
  rw [hullHi_lt]
  constructor
  · intro less
    exact ⟨absorbs.right.trans_lt less, fun b member touches => (absorbs.inside b member touches).2.trans_lt less⟩
  · rintro ⟨less, all⟩
    rcases absorbs.rightmost with same | ⟨b, member, touches, same⟩
    · exact same ▸ less
    · exact same ▸ all b member touches

theorem Absorbs.proper (absorbs : Absorbs lo hi start fin l m result) (nonempty : start < fin) : lo m < hi m :=
  absorbs.left.trans_lt (nonempty.trans_le absorbs.right)

theorem Separated.eq_or_apart (separated : Separated lo hi l) {a b : β} (inside : a ∈ l) (inside' : b ∈ l) :
    a = b ∨ hi a < lo b ∨ hi b < lo a := by
  by_cases same : a = b
  · exact Or.inl same
  · have either : l.Pairwise fun a b => hi a < lo b ∨ hi b < lo a := separated.apart.imp Or.inl
    have : Std.Symm fun a b => hi a < lo b ∨ hi b < lo a := ⟨fun _ _ => Or.symm⟩
    exact Or.inr (either.forall inside inside' same)

theorem Absorbs.below (absorbs : Absorbs lo hi start fin l m result) (separated : Separated lo hi l) {b : β}
    (member : b ∈ l) (before : hi b < start) : hi b < lo m := by
  rcases absorbs.leftmost with same | ⟨c, inside, touches, same⟩
  · exact same ▸ before
  · rw [← same]
    rcases separated.eq_or_apart member inside with rfl | apart | apart
    · exact absurd before (not_lt.mpr touches.1)
    · exact apart
    · have proper := separated.nonempty b member
      exact absurd (apart.trans (proper.trans before)) (not_lt.mpr touches.1)

theorem Absorbs.above (absorbs : Absorbs lo hi start fin l m result) (separated : Separated lo hi l) {b : β}
    (member : b ∈ l) (after : fin < lo b) : hi m < lo b := by
  rcases absorbs.rightmost with same | ⟨c, inside, touches, same⟩
  · exact same ▸ after
  · rw [← same]
    rcases separated.eq_or_apart member inside with rfl | apart | apart
    · exact absurd after (not_lt.mpr touches.2)
    · have proper := separated.nonempty b member
      exact absurd (after.trans (proper.trans apart)) (not_lt.mpr touches.2)
    · exact apart

theorem Absorbs.separated (absorbs : Absorbs lo hi start fin l m result) (separated : Separated lo hi l)
    (nonempty : start < fin) : Separated lo hi result where
  nonempty b member := by
    rcases absorbs.mem.mp member with low | same | high
    · exact separated.nonempty b low.1
    · exact same ▸ absorbs.proper nonempty
    · exact separated.nonempty b high.1
  apart := by
    rw [absorbs.result, List.pairwise_append, List.pairwise_cons]
    have middle := absorbs.proper nonempty
    refine ⟨separated.apart.sublist List.filter_sublist, ⟨fun b member => ?_,
      separated.apart.sublist List.filter_sublist⟩, fun a low b high => ?_⟩
    · obtain ⟨inside, after⟩ := List.mem_filter.mp member
      exact absorbs.above separated inside (of_decide_eq_true after)
    · obtain ⟨inside, before⟩ := List.mem_filter.mp low
      have belowM := absorbs.below separated inside (of_decide_eq_true before)
      rcases List.mem_cons.mp high with same | later
      · exact same ▸ belowM
      · obtain ⟨inside', after⟩ := List.mem_filter.mp later
        exact belowM.trans (middle.trans (absorbs.above separated inside' (of_decide_eq_true after)))

/-- The new list covers the old points and those of the interval. -/
theorem Absorbs.cover (absorbs : Absorbs lo hi start fin l m result) :
    cover lo hi result = cover lo hi l ∪ Set.Ico start fin := by
  ext k
  constructor
  · rintro ⟨b, member, low, high⟩
    rcases absorbs.mem.mp member with ⟨inside, _⟩ | rfl | ⟨inside, _⟩
    · exact Or.inl ⟨b, inside, low, high⟩
    · -- A point of `m` outside the interval belongs to the one that gave `m` its end there.
      by_cases early : k < start
      · rcases absorbs.leftmost with same | ⟨c, inside, touches, same⟩
        · exact absurd (same ▸ low) (not_le.mpr early)
        · exact Or.inl ⟨c, inside, same ▸ low, early.trans_le touches.1⟩
      · by_cases late : fin ≤ k
        · rcases absorbs.rightmost with same | ⟨c, inside, touches, same⟩
          · exact absurd (same ▸ high) (not_lt.mpr late)
          · exact Or.inl ⟨c, inside, touches.2.trans late, same ▸ high⟩
        · exact Or.inr ⟨not_lt.mp early, not_le.mp late⟩
    · exact Or.inl ⟨b, inside, low, high⟩
  · rintro (⟨b, inside, low, high⟩ | ⟨low, high⟩)
    · by_cases before : hi b < start
      · exact ⟨b, absorbs.mem.mpr (Or.inl ⟨inside, before⟩), low, high⟩
      · by_cases after : fin < lo b
        · exact ⟨b, absorbs.mem.mpr (Or.inr (Or.inr ⟨inside, after⟩)), low, high⟩
        · obtain ⟨left, right⟩ := absorbs.inside b inside ⟨not_lt.mp before, not_lt.mp after⟩
          exact ⟨m, absorbs.mem.mpr (Or.inr (Or.inl rfl)), left.trans low, high.trans_le right⟩
    · exact ⟨m, absorbs.mem.mpr (Or.inr (Or.inl rfl)), absorbs.left.trans low, high.trans_le absorbs.right⟩

section Size

variable {γ : Type v} {lo hi : γ → ℤ} {l : List γ}

def size (lo hi : γ → ℤ) (l : List γ) : ℤ := (l.map fun b => hi b - lo b).sum

theorem size_cons (b : γ) : size lo hi (b :: l) = (hi b - lo b) + size lo hi l := rfl

theorem size_append (l l' : List γ) : size lo hi (l ++ l') = size lo hi l + size lo hi l' := by
  simp [size]

theorem size_filter (lo hi : γ → ℤ) (p : γ → Prop) [DecidablePred p] (l : List γ) :
    size lo hi l = size lo hi (l.filter p) + size lo hi (l.filter fun b => ¬p b) := by
  induction l with
  | nil => rfl
  | cons b l ih =>
    by_cases holds : p b
    · rw [List.filter_cons_of_pos (by simpa using holds), List.filter_cons_of_neg (by simpa using holds), size_cons,
        size_cons, ih]
      omega
    · rw [List.filter_cons_of_neg (by simpa using holds), List.filter_cons_of_pos (by simpa using holds), size_cons,
        size_cons, ih]
      omega

theorem cover_finite (lo hi : γ → ℤ) (l : List γ) : (cover lo hi l).Finite := by
  induction l with
  | nil => simp [cover]
  | cons b l ih =>
    rw [cover_cons]
    exact (Set.finite_Ico _ _).union ih

/-- Spaced intervals have as many points as their lengths say. -/
theorem Spaced.size_eq (spaced : Spaced lo hi l) : size lo hi l = (cover lo hi l).ncard := by
  induction l with
  | nil => simp [size, cover]
  | cons b l ih =>
    have rest := spaced.sublist (List.sublist_cons_self b l)
    have before := (List.pairwise_cons.mp spaced.apart).1
    have disjoint : Disjoint (Set.Ico (lo b) (hi b)) (cover lo hi l) := by
      rw [Set.disjoint_left]
      rintro k ⟨_, high⟩ ⟨c, member, low, _⟩
      exact absurd (high.trans (before c member)) (not_lt.mpr low)
    have length : ((Set.Ico (lo b) (hi b)).ncard : ℤ) = hi b - lo b := by
      have proper := spaced.proper b List.mem_cons_self
      rw [← Finset.coe_Ico, Set.ncard_coe_finset, Int.card_Ico]
      omega
    rw [size_cons, cover_cons, Set.ncard_union_eq disjoint (Set.finite_Ico _ _) (cover_finite lo hi l), ih rest,
      Nat.cast_add, length]

theorem Separated.size_eq (separated : Separated lo hi l) : size lo hi l = (cover lo hi l).ncard := separated.spaced.size_eq

end Size

end Intervals

/-! Lists of half-open intervals `[lo, hi)` of integers, each beginning where the one before it ends. -/

namespace Intervals

variable {β : Type u} {lo hi : β → ℤ} {l : List β} {a b : ℤ}

/-- The intervals of the list follow one another from `a` to `b`, and none is empty. -/
def Spans (lo hi : β → ℤ) : ℤ → List β → ℤ → Prop
  | a, [], b => a = b
  | a, n :: l, b => lo n = a ∧ a < hi n ∧ Spans lo hi (hi n) l b

theorem spans_append {l l' : List β} :
    Spans lo hi a (l ++ l') b ↔ ∃ c, Spans lo hi a l c ∧ Spans lo hi c l' b := by
  induction l generalizing a with
  | nil => exact ⟨fun rest => ⟨a, rfl, rest⟩, fun ⟨_, same, rest⟩ => same ▸ rest⟩
  | cons n l ih =>
    constructor
    · rintro ⟨first, proper, rest⟩
      obtain ⟨c, left, right⟩ := ih.mp rest
      exact ⟨c, ⟨first, proper, left⟩, right⟩
    · rintro ⟨c, ⟨first, proper, left⟩, right⟩
      exact ⟨first, proper, ih.mpr ⟨c, left, right⟩⟩

/-- A part of the list may be exchanged for one that spans the same points. -/
theorem Spans.exchange {before mid mid' after : List β} (spans : Spans lo hi a (before ++ (mid ++ after)) b)
    (same : ∀ c d, Spans lo hi c mid d → Spans lo hi c mid' d) : Spans lo hi a (before ++ (mid' ++ after)) b := by
  obtain ⟨c, left, rest⟩ := spans_append.mp spans
  obtain ⟨d, middle, right⟩ := spans_append.mp rest
  exact spans_append.mpr ⟨c, left, spans_append.mpr ⟨d, same c d middle, right⟩⟩

theorem Spans.le (spans : Spans lo hi a l b) : a ≤ b := by
  induction l generalizing a with
  | nil => exact le_of_eq spans
  | cons n l ih => exact spans.2.1.le.trans (ih spans.2.2)

theorem Spans.nonempty (spans : Spans lo hi a l b) : ∀ n ∈ l, lo n < hi n := by
  induction l generalizing a with
  | nil => exact fun _ member => absurd member List.not_mem_nil
  | cons n l ih => exact List.forall_mem_cons.mpr ⟨spans.1 ▸ spans.2.1, ih spans.2.2⟩

theorem Spans.start_le (spans : Spans lo hi a l b) : ∀ n ∈ l, a ≤ lo n := by
  induction l generalizing a with
  | nil => exact fun _ member => absurd member List.not_mem_nil
  | cons n l ih =>
    exact List.forall_mem_cons.mpr ⟨spans.1.ge, fun m member => spans.2.1.le.trans (ih spans.2.2 m member)⟩

theorem Spans.chain (spans : Spans lo hi a l b) : l.IsChain fun m n => lo n = hi m := by
  induction l generalizing a with
  | nil => exact .nil
  | cons n l ih =>
    cases l with
    | nil => exact .singleton n
    | cons m l => exact .cons_cons spans.2.2.1 (ih spans.2.2)

theorem Spans.getLast_hi (spans : Spans lo hi a l b) {n : β} (last : l.getLast? = some n) : hi n = b := by
  obtain ⟨front, rfl⟩ := List.getLast?_eq_some_iff.mp last
  obtain ⟨_, _, rest⟩ := spans_append.mp spans
  exact rest.2.2

theorem Spans.sub_le (spans : Spans lo hi a l b) : b - a ≤ (l.map fun n => (hi n - lo n).toNat + 1).sum := by
  induction l generalizing a with
  | nil => exact (sub_eq_zero.mpr (Eq.symm spans)).le
  | cons n l ih =>
    have rest := ih spans.2.2
    have start := spans.1
    rw [List.map_cons, List.sum_cons]
    omega

/-- The number of points in those intervals that meet `p`. -/
def extent (lo hi : β → ℤ) (p : β → Prop) [DecidablePred p] (l : List β) : ℤ :=
  ((l.filter p).map fun n => hi n - lo n).sum

variable {p : β → Prop} [DecidablePred p]

theorem extent_cons (n : β) (l : List β) :
    extent lo hi p (n :: l) = (if p n then hi n - lo n else 0) + extent lo hi p l := by
  rw [extent]
  split_ifs with holds
  · rw [List.filter_cons_of_pos (by simpa using holds), List.map_cons, List.sum_cons, extent]
  · rw [List.filter_cons_of_neg (by simpa using holds), zero_add, extent]

theorem extent_append (l l' : List β) : extent lo hi p (l ++ l') = extent lo hi p l + extent lo hi p l' := by
  simp [extent]

theorem Spans.extent_nonneg (spans : Spans lo hi a l b) : 0 ≤ extent lo hi p l := by
  induction l generalizing a with
  | nil => exact le_rfl
  | cons n l ih =>
    have proper := spans.nonempty n List.mem_cons_self
    have rest := ih spans.2.2
    rw [extent_cons]
    split_ifs <;> omega

end Intervals
