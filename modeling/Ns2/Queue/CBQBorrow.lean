import Ns2.Queue.CBQ
import Mathlib.Data.Fintype.EquivFin

universe u

namespace Ns2

open NextChain

/-- A queue whose classes lend along no cycle. -/
structure LinkSharing (ι : Type u) extends CBQueue ι where
  acyclic : Acyclic fun a b => (cls a).lender = some b

namespace LinkSharing

variable {ι : Type u}

def lender (s : LinkSharing ι) (cl : ι) : Option ι := (s.cls cl).lender

theorem lends_wellFounded [Finite ι] (s : LinkSharing ι) : WellFounded fun b a => s.lender a = some b := s.acyclic.wellFounded

variable [DecidableEq ι]

def ancestor [Finite ι] (s : LinkSharing ι) (this p : ι) : Bool :=
  if !(s.cls p).permitBorrowing then false
  else match _lends : s.lender p with
  | none => false
  | some parent => if parent = this then true else s.ancestor this parent
termination_by s.lends_wellFounded.wrap p
decreasing_by exact _lends

def descWithDemand [Finite ι] (s : LinkSharing ι) (this : ι) : Bool :=
  (s.levels LEAF_LEVEL).any fun p => (s.cls p).demand && s.ancestor this p

def satisfied [Finite ι] (s : LinkSharing ι) (this : ι) (now : ℚ) : Bool :=
  if (s.cls this).level = LEAF_LEVEL then !((s.cls this).undertime < now && (s.cls this).demand)
  else !((s.cls this).undertime < now && s.descWithDemand this)

/-- From the level of the leaves up to the one below that of `cl`. -/
def eligibleFormal [Finite ι] (s : LinkSharing ι) (cl : ι) (now : ℚ) : Bool :=
  (List.range ((s.cls cl).level - LEAF_LEVEL).toNat).all fun i => (s.levels (LEAF_LEVEL + i)).all fun p => s.satisfied p now

def eligibleAncestors (_ : LinkSharing ι) (_ : ι) (_ : ℚ) : Bool := true

def eligibleToplevel (s : LinkSharing ι) (cl : ι) (_ : ℚ) : Bool := (s.cls cl).level ≤ s.toplevelLimit

/-- The switch in `find_lender`. `none` is a call of `abort`, here and below. -/
def eligibleFor [Finite ι] (s : LinkSharing ι) (cl : ι) (now : ℚ) : Option Bool :=
  match s.eligible with
  | .toplevel => some (s.eligibleToplevel cl now)
  | .ancestors => some (s.eligibleAncestors cl now)
  | .formal => some (s.eligibleFormal cl now)
  | .none => none

/-- The loop of `find_lender` at the class `cl`. -/
def findLenderFrom [Finite ι] (s : LinkSharing ι) (now : ℚ) (cl : ι) : Option (Option ι) :=
  let next : Option (Option ι) := match _lends : s.lender cl with
    | none => some none
    | some parent => s.findLenderFrom now parent
  if (s.cls cl).undertime > now then
    if s.toplevel && (s.cls cl).level > s.toplevelLimit then some none else next
  else (s.eligibleFor cl now).bind fun lends => if lends then some (some cl) else next
termination_by s.lends_wellFounded.wrap cl
decreasing_by exact _lends

variable [Finite ι]

def findLender (s : LinkSharing ι) (cl : ι) (now : ℚ) : Option (Option ι) :=
  if !(s.cls cl).permitBorrowing then some none
  else match s.lender cl with
  | none => some none
  | some parent => s.findLenderFrom now parent

/-- The new `last_lender_`, if the class may send. -/
def sendPermitted (s : LinkSharing ι) (cl : ι) (now : ℚ) : Option (Option ι) :=
  if (s.cls cl).undertime < now then some (some cl)
  else if (s.cls cl).permitBorrowing then s.findLender cl now
  else some none

/-- The walk up the tree goes by such a class. -/
def Passes (s : LinkSharing ι) (now : ℚ) (cl : ι) : Prop :=
  ((s.cls cl).undertime > now ∧ ¬(s.toplevel = true ∧ (s.cls cl).level > s.toplevelLimit)) ∨
    (¬(s.cls cl).undertime > now ∧ s.eligibleFor cl now = some false)

/-- The walk up the tree ends with such a class. -/
def Lends (s : LinkSharing ι) (now : ℚ) (cl : ι) : Prop :=
  ¬(s.cls cl).undertime > now ∧ s.eligibleFor cl now = some true

variable {s : LinkSharing ι} {now : ℚ} {cl this p a m : ι} {l : List ι} {after : Option ι}

theorem ancestor_eq : s.ancestor this p = ((s.cls p).permitBorrowing &&
    (s.lender p).elim false fun parent => if parent = this then true else s.ancestor this parent) := by
  rw [ancestor]
  cases (s.cls p).permitBorrowing with
  | false => rfl
  | true =>
    rw [if_neg (by decide), Bool.true_and]
    split <;> rename_i lends <;> rw [lends] <;> rfl

theorem findLenderFrom_eq : s.findLenderFrom now cl =
    if (s.cls cl).undertime > now then
      if s.toplevel && (s.cls cl).level > s.toplevelLimit then some none
      else (s.lender cl).elim (some none) fun parent => s.findLenderFrom now parent
    else (s.eligibleFor cl now).bind fun lends =>
      if lends then some (some cl) else (s.lender cl).elim (some none) fun parent => s.findLenderFrom now parent := by
  rw [findLenderFrom]
  split_ifs
  · rfl
  · split <;> rename_i lends <;> rw [lends] <;> rfl
  · split <;> rename_i lends <;> rw [lends] <;> rfl

/-- A class is an ancestor if all on the way to it may borrow. -/
theorem ancestor_iff (path : NextChain.Path s.lender (s.lender p) (l ++ [this]) after) (fresh : this ∉ l) :
    s.ancestor this p = true ↔ (s.cls p).permitBorrowing = true ∧ ∀ m ∈ l, (s.cls m).permitBorrowing = true := by
  induction l generalizing p with
  | nil =>
    rw [ancestor_eq, path.1, Option.elim_some, if_pos rfl, Bool.and_true]
    exact (and_iff_left fun m member => absurd member List.not_mem_nil).symm
  | cons m l ih =>
    rw [List.mem_cons, not_or] at fresh
    rw [ancestor_eq, path.1, Option.elim_some, if_neg (Ne.symm fresh.1), Bool.and_eq_true, ih path.2 fresh.2, List.forall_mem_cons]

section Walk

theorem findLenderFrom_lends (lends : s.Lends now cl) : s.findLenderFrom now cl = some (some cl) := by
  rw [findLenderFrom_eq, if_neg lends.1, lends.2]
  rfl

theorem findLenderFrom_passes (passes : s.Passes now cl) :
    s.findLenderFrom now cl = (s.lender cl).elim (some none) fun parent => s.findLenderFrom now parent := by
  rw [findLenderFrom_eq]
  rcases passes with ⟨overlimit, below⟩ | ⟨underlimit, ineligible⟩
  · rw [if_pos overlimit, if_neg (by rwa [Bool.and_eq_true, decide_eq_true_iff])]
  · rw [if_neg underlimit, ineligible]
    rfl

theorem findLenderFrom_stuck (noLender : ¬s.Lends now cl) (stays : ¬s.Passes now cl) : s.findLenderFrom now cl ≠ some (some a) := by
  rw [findLenderFrom_eq]
  by_cases overlimit : (s.cls cl).undertime > now
  · have early : s.toplevel = true ∧ (s.cls cl).level > s.toplevelLimit := not_not.mp fun below => stays (Or.inl ⟨overlimit, below⟩)
    rw [if_pos overlimit, if_pos (by rwa [Bool.and_eq_true, decide_eq_true_iff])]
    exact fun same => absurd (Option.some.inj same) (Option.some_ne_none a).symm
  · rw [if_neg overlimit]
    cases answer : s.eligibleFor cl now with
    | none => exact fun same => absurd same (Option.some_ne_none (some a)).symm
    | some lends =>
      cases lends with
      | true => exact absurd ⟨overlimit, answer⟩ noLender
      | false => exact absurd (Or.inr ⟨overlimit, answer⟩) stays

theorem Lends.not_passes (lends : s.Lends now cl) : ¬s.Passes now cl := by
  rintro (⟨overlimit, _⟩ | ⟨_, ineligible⟩)
  · exact lends.1 overlimit
  · exact absurd (lends.2.symm.trans ineligible) (by decide)

/-- The walk leads from a pointer along the classes `l`, none of which lends, to the lender `a`. -/
structure Way (s : LinkSharing ι) (now : ℚ) (start : Option ι) (l : List ι) (a : ι) : Prop where
  path : NextChain.Path s.lender start (l ++ [a]) (s.lender a)
  passes : ∀ m ∈ l, s.Passes now m
  lends : s.Lends now a

theorem way_none : ¬s.Way now none l a := by
  intro way
  cases l <;> cases way.path.1

theorem way_nil : s.Way now (some cl) [] a ↔ cl = a ∧ s.Lends now cl := by
  constructor
  · intro way
    cases way.path.1
    exact ⟨rfl, way.lends⟩
  · rintro ⟨rfl, lends⟩
    exact ⟨⟨rfl, rfl⟩, fun m member => absurd member List.not_mem_nil, lends⟩

theorem way_cons : s.Way now (some cl) (m :: l) a ↔ cl = m ∧ s.Passes now cl ∧ s.Way now (s.lender cl) l a := by
  constructor
  · intro way
    cases way.path.1
    exact ⟨rfl, way.passes cl List.mem_cons_self, way.path.2, fun m member => way.passes m (List.mem_cons_of_mem _ member), way.lends⟩
  · rintro ⟨rfl, passes, way⟩
    exact ⟨⟨rfl, way.path⟩, List.forall_mem_cons.mpr ⟨passes, way.passes⟩, way.lends⟩

theorem exists_way : (∃ l, s.Way now (some cl) l a) ↔ (cl = a ∧ s.Lends now cl) ∨ s.Passes now cl ∧ ∃ l, s.Way now (s.lender cl) l a := by
  constructor
  · rintro ⟨_ | ⟨m, l⟩, way⟩
    · exact Or.inl (way_nil.mp way)
    · obtain ⟨_, passes, rest⟩ := way_cons.mp way
      exact Or.inr ⟨passes, l, rest⟩
  · rintro (here | ⟨passes, l, rest⟩)
    · exact ⟨[], way_nil.mpr here⟩
    · exact ⟨cl :: l, way_cons.mpr ⟨rfl, passes, rest⟩⟩

/-- The lender is the first class on the way up that the walk does not pass by. -/
theorem findLenderFrom_iff : s.findLenderFrom now cl = some (some a) ↔ ∃ l, s.Way now (some cl) l a := by
  induction cl using s.lends_wellFounded.induction with
  | _ cl ih =>
    rw [exists_way]
    by_cases lends : s.Lends now cl
    · rw [findLenderFrom_lends lends, and_iff_left lends, or_iff_left fun further => lends.not_passes further.1]
      exact ⟨fun same => Option.some.inj (Option.some.inj same), fun same => congrArg (some ∘ some) same⟩
    · rw [or_iff_right fun here => lends here.2]
      by_cases passes : s.Passes now cl
      · rw [findLenderFrom_passes passes, and_iff_right passes]
        cases up : s.lender cl with
        | none => exact iff_of_false (fun same => absurd (Option.some.inj same) (Option.some_ne_none a).symm) fun ⟨_, way⟩ => way_none way
        | some parent => exact ih parent up
      · exact iff_of_false (findLenderFrom_stuck lends passes) fun further => passes further.1

end Walk

/-- The class sends by borrowing, and `a` is its `last_lender_`. -/
def Borrows (s : LinkSharing ι) (now : ℚ) (cl a : ι) : Prop :=
  ¬(s.cls cl).undertime < now ∧ s.sendPermitted cl now = some (some a)

/-- What a lender must be. -/
structure Rightful (s : LinkSharing ι) (now : ℚ) (cl a : ι) : Prop where
  ancestor : s.ancestor a cl = true
  notOverlimit : ¬(s.cls a).undertime > now
  formal : s.eligible = .formal → ∀ level, LEAF_LEVEL ≤ level → level < (s.cls a).level → ∀ p ∈ s.levels level, s.satisfied p now = true

theorem borrows_iff : s.Borrows now cl a ↔
    ¬(s.cls cl).undertime < now ∧ (s.cls cl).permitBorrowing = true ∧ ∃ l, s.Way now (s.lender cl) l a := by
  rw [Borrows, and_congr_right_iff]
  intro late
  rw [sendPermitted, if_neg late]
  have nobody : (some none : Option (Option ι)) ≠ some (some a) := fun same => absurd (Option.some.inj same) (Option.some_ne_none a).symm
  split_ifs with permits
  · rw [findLender, if_neg (by rw [permits]; decide), and_iff_right permits]
    cases up : s.lender cl with
    | none => exact iff_of_false nobody fun ⟨_, way⟩ => way_none way
    | some parent => exact findLenderFrom_iff
  · exact iff_of_false nobody fun both => permits both.1

/-- Under the formal rule, the levels below a lender are satisfied. -/
theorem Lends.formal (lends : s.Lends now a) (formal : s.eligible = .formal) {level : ℤ} (leaf : LEAF_LEVEL ≤ level)
    (lower : level < (s.cls a).level) (listed : p ∈ s.levels level) : s.satisfied p now = true := by
  have answer := lends.2
  rw [eligibleFor, formal] at answer
  have all := List.all_eq_true.mp (Option.some.inj answer) (level - LEAF_LEVEL).toNat (List.mem_range.mpr (by omega))
  rw [Int.toNat_of_nonneg (by omega), add_sub_cancel] at all
  exact List.all_eq_true.mp all p listed

theorem Way.rightful_iff (way : s.Way now (s.lender cl) l a) (permits : (s.cls cl).permitBorrowing = true) :
    s.Rightful now cl a ↔ ∀ m ∈ l, (s.cls m).permitBorrowing = true := by
  have ancestor := ancestor_iff way.path (way.path.last_notMem s.acyclic)
  rw [and_iff_right permits] at ancestor
  refine ⟨fun rightful => ancestor.mp rightful.ancestor, fun permit => ⟨ancestor.mpr permit, way.lends.1, ?_⟩⟩
  exact fun formal _ leaf lower p listed => way.lends.formal formal leaf lower listed

/-- The walk and the ancestor test agree exactly when all classes that the walk of a borrower passes by may borrow themselves. -/
theorem lenders_rightful_iff (s : LinkSharing ι) (now : ℚ) (cl : ι) : (∀ a, s.Borrows now cl a → s.Rightful now cl a) ↔
    (¬(s.cls cl).undertime < now → (s.cls cl).permitBorrowing = true →
      ∀ l a, s.Way now (s.lender cl) l a → ∀ m ∈ l, (s.cls m).permitBorrowing = true) := by
  constructor
  · intro rightful late permits l a way
    exact (way.rightful_iff permits).mp (rightful a (borrows_iff.mpr ⟨late, permits, l, way⟩))
  · intro permit a borrows
    obtain ⟨late, permits, l, way⟩ := borrows_iff.mp borrows
    exact (way.rightful_iff permits).mpr (permit late permits l a way)

/-- A leaf with a backlog, its parent that may not borrow, and the root. Only the root is underlimit at time 5. -/
def chain : LinkSharing (Fin 3) where
  cls i :=
    if i = 0 then ⟨none, some 1, true, 1, 1 / 4, 1, 10, 0, 1, true⟩
    else if i = 1 then ⟨none, some 2, false, 0, 1 / 2, 1, 10, 0, 2, false⟩
    else ⟨none, none, false, 0, 1, 1, 0, 0, 3, true⟩
  active _ := none
  levels _ := []
  maxprio := 0
  maxpkt := 1000
  maxlevel := 3
  toplevelLimit := 32
  eligible := .ancestors
  link := some 1
  acyclic := acyclic_of_rank Fin.val (by decide)

theorem lenders_rightful_iff_sample : (∀ a, chain.Borrows 5 0 a → chain.Rightful 5 0 a) ↔
    (¬(chain.cls 0).undertime < 5 → (chain.cls 0).permitBorrowing = true →
      ∀ l a, chain.Way 5 (chain.lender 0) l a → ∀ m ∈ l, (chain.cls m).permitBorrowing = true) :=
  lenders_rightful_iff chain 5 0

/-- The leaf borrows from the root, which is not its ancestor. -/
theorem middle_ignored : chain.Borrows 5 0 2 ∧ chain.ancestor 2 0 = false ∧ ¬chain.Rightful 5 0 2 := by
  have way : chain.Way 5 (chain.lender 0) [1] 2 := by
    refine ⟨⟨rfl, rfl, rfl⟩, fun m member => ?_, by decide, rfl⟩
    rw [List.mem_singleton.mp member]
    exact Or.inl ⟨by decide, by decide⟩
  have forbidden : ¬∀ m ∈ [1], (chain.cls m).permitBorrowing = true := by decide
  have wrong : ¬chain.Rightful 5 0 2 := fun rightful => forbidden ((way.rightful_iff rfl).mp rightful)
  have notAncestor : ¬chain.ancestor 2 0 = true := fun ancestor => forbidden ((ancestor_iff way.path (by decide)).mp ancestor).2
  exact ⟨borrows_iff.mpr ⟨by decide, rfl, [1], way⟩, (Bool.not_eq_true _).mp notAncestor, wrong⟩

end LinkSharing

end Ns2
