import Mathlib.Logic.Relation
import Mathlib.Order.Basic
import Mathlib.Data.Fintype.Card
import Mathlib.Data.Prod.Lex

universe u v

/-! Graphs without cycles. -/

/-- No path leads back to where it starts. -/
def Acyclic {α : Type u} (edge : α → α → Prop) : Prop := ∀ i, ¬Relation.TransGen edge i i

/-- A path along which the rank rises wherever it goes on has no way back: nodes without an edge need no rank. -/
theorem acyclic_of_rank {α : Type u} {β : Type v} [Preorder β] {edge : α → α → Prop} (rank : α → β)
    (rises : ∀ i j k, edge i j → edge j k → rank i < rank j) : Acyclic edge := by
  have path (i j : α) (walk : Relation.TransGen edge i j) : ∀ k, edge j k → rank i < rank j := by
    induction walk with
    | single first => exact fun k next => rises i _ k first next
    | tail _ last ih => exact fun k next => (ih _ last).trans (rises _ _ k last next)
  intro i cycle
  obtain ⟨k, first, _⟩ := Relation.TransGen.head'_iff.mp cycle
  exact lt_irrefl (rank i) (path i i cycle k first)

theorem Acyclic.mono {α : Type u} {edge edge' : α → α → Prop} (acyclic : Acyclic edge) (sub : ∀ i j, edge' i j → edge i j) :
    Acyclic edge' := fun i cycle => acyclic i (Relation.TransGen.mono sub i i cycle)

/-- Without cycles, no walk among finitely many nodes goes on for ever. -/
theorem Acyclic.wellFounded {α : Type u} [Finite α] {edge : α → α → Prop} (acyclic : Acyclic edge) :
    WellFounded fun b a => edge a b := by
  have irreflexive : Std.Irrefl fun b a => Relation.TransGen edge a b := ⟨acyclic⟩
  have transitive : IsTrans α fun b a => Relation.TransGen edge a b := ⟨fun _ _ _ first second => second.trans first⟩
  exact Subrelation.wf (fun step => Relation.TransGen.single step) (Finite.wellFounded_of_trans_of_irrefl _)

section Relink

variable {α : Type u} {edge edge' : α → α → Prop} {a b : α}

/-- On the way to `a`, no edge out of `a` is needed. -/
theorem reaches_congr (same : ∀ x y, x ≠ a → edge x y → edge' x y) {x : α} (walk : Relation.ReflTransGen edge x a) :
    Relation.ReflTransGen edge' x a := by
  induction walk using Relation.ReflTransGen.head_induction_on with
  | refl => exact .refl
  | @head x y first _ ih =>
    by_cases here : x = a
    · rw [here]
    · exact .head (same x y here first) ih

/-- A walk in the graph with the new edge is one without it, or it goes over the new edge. -/
theorem walk_relink (same : ∀ x y, x ≠ a → edge' x y → edge x y) (only : ∀ y, edge' a y → y = b) {x y : α}
    (walk : Relation.TransGen edge' x y) :
    Relation.TransGen edge x y ∨ Relation.ReflTransGen edge' x a ∧ Relation.ReflTransGen edge' b y := by
  induction walk with
  | @single y first =>
    by_cases here : x = a
    · rw [here, only y (here ▸ first)]
      exact Or.inr ⟨.refl, .refl⟩
    · exact Or.inl (.single (same x y here first))
  | @tail y z walk last ih =>
    by_cases here : y = a
    · rw [only z (here ▸ last)]
      exact Or.inr ⟨here ▸ walk.to_reflTransGen, .refl⟩
    · rcases ih with old | ⟨toA, fromB⟩
      · exact Or.inl (old.tail (same y z here last))
      · exact Or.inr ⟨toA, fromB.tail last⟩

/-- A new edge in the place of those out of `a` closes a cycle exactly if it leads to where `a` is reached from. -/
theorem acyclic_relink (acyclic : Acyclic edge) (same : ∀ x y, x ≠ a → (edge' x y ↔ edge x y)) (only : ∀ y, edge' a y ↔ y = b) :
    Acyclic edge' ↔ ¬Relation.ReflTransGen edge b a := by
  constructor
  · intro acyclic' back
    have back' := reaches_congr (fun x y apart => (same x y apart).mpr) back
    exact acyclic' a (Relation.TransGen.head' ((only b).mpr rfl) back')
  · intro forward i cycle
    rcases walk_relink (fun x y apart => (same x y apart).mp) (fun y => (only y).mp) cycle with old | ⟨toA, fromB⟩
    · exact acyclic i old
    · exact forward (reaches_congr (fun x y apart => (same x y apart).mp) (fromB.trans toA))

end Relink

/-! Routes with sequence numbers and distances, over any kind of node: a newer number comes first, and then a shorter distance. -/

namespace RouteOrder

/-- An entry of a routing table, whether the route is valid or not. -/
structure Route (ν : Type u) where
  seqno : ℕ
  hops : ℕ
  nexthop : ν

variable {ν : Type u}

/-- The entries for one destination at all nodes. -/
abbrev View (ν : Type u) := ν → Option (Route ν)

/-- The entry has a newer or a shorter route than this one. -/
def Fresher (r : Route ν) (seqno hops : ℕ) : Prop := seqno < r.seqno ∨ seqno = r.seqno ∧ r.hops < hops

/-- The entry may replace the other. -/
def AtLeast (old new : Route ν) : Prop := old.seqno < new.seqno ∨ old.seqno = new.seqno ∧ new.hops ≤ old.hops

/-- A next hop is the destination, or has a fresher entry. -/
def Supports (view : View ν) (dst : ν) (seqno hops : ℕ) (nexthop : ν) : Prop :=
  dst = nexthop ∨ ∃ r, view nexthop = some r ∧ Fresher r seqno hops

/-- No entry gets lost or gets worse. -/
def Grows (view view' : View ν) : Prop := ∀ i r, view i = some r → ∃ r', view' i = some r' ∧ AtLeast r r'

theorem AtLeast.refl (r : Route ν) : AtLeast r r := Or.inr ⟨rfl, le_rfl⟩

theorem AtLeast.trans {r mid r' : Route ν} (first : AtLeast r mid) (second : AtLeast mid r') : AtLeast r r' := by
  unfold AtLeast at *
  omega

theorem Fresher.atLeast {r r' : Route ν} {seqno hops : ℕ} (fresher : Fresher r seqno hops) (atLeast : AtLeast r r') :
    Fresher r' seqno hops := by
  unfold Fresher AtLeast at *
  omega

theorem Supports.grows {view view' : View ν} {dst nexthop : ν} {seqno hops : ℕ} (supports : Supports view dst seqno hops nexthop)
    (grows : Grows view view') : Supports view' dst seqno hops nexthop := by
  rcases supports with arrived | ⟨r, found, fresher⟩
  · exact Or.inl arrived
  · obtain ⟨r', found', atLeast⟩ := grows nexthop r found
    exact Or.inr ⟨r', found', fresher.atLeast atLeast⟩

/-- Where every valid entry has a next hop that supports it, and the destination itself has none, the next hops have no cycle. -/
theorem acyclic_of_supported (view : View ν) (dst : ν) (valid : ν → Route ν → Prop) (entry : ∀ i r, valid i r → view i = some r)
    (remote : ∀ r, ¬valid dst r) (supported : ∀ i r, valid i r → Supports view dst r.seqno r.hops r.nexthop) :
    Acyclic fun i j => ∃ r, valid i r ∧ r.nexthop = j := by
  let rank (i : ν) : ℕ ×ₗ ℕᵒᵈ := (view i).elim (toLex (0, .toDual 0)) fun r => toLex (r.seqno, .toDual r.hops)
  refine acyclic_of_rank rank ?_
  rintro i j k ⟨r, fits, rfl⟩ ⟨r', fits', rfl⟩
  have here := entry i r fits
  have there := entry _ r' fits'
  rcases supported i r fits with arrived | ⟨next, found, fresher⟩
  · exact absurd (arrived ▸ fits') (remote r')
  · rw [there] at found
    cases Option.some.inj found
    dsimp only [rank]
    rw [here, there]
    exact Prod.Lex.toLex_lt_toLex.mpr fresher

end RouteOrder
