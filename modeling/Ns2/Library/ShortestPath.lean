import Mathlib.Algebra.Order.Monoid.Unbundled.Pow
import Mathlib.Algebra.Order.Monoid.Defs
import Mathlib.Data.Finset.Card
import Mathlib.Tactic.Abel

universe u v

variable {ι : Type u} {κ : Type v}

section Walks

variable [AddCommMonoid κ] {Arc : ι → ι → κ → Prop} {a b c d : ι} {l m : List ι} {x y z : κ}

/-- A walk from `a` through the nodes of a list to the last of them, and its cost. -/
inductive Walk (Arc : ι → ι → κ → Prop) : ι → List ι → ι → κ → Prop
  | nil (a : ι) : Walk Arc a [] a 0
  | cons {a b c : ι} {l : List ι} {x y : κ} : Arc a b x → Walk Arc b l c y → Walk Arc a (b :: l) c (x + y)

theorem Walk.arc (arc : Arc a b x) : Walk Arc a [b] b x := by
  have walk := Walk.cons arc (Walk.nil b)
  rwa [add_zero] at walk

theorem Walk.append (first : Walk Arc a l b x) (second : Walk Arc b m c y) : Walk Arc a (l ++ m) c (x + y) := by
  induction first with
  | nil a => rwa [zero_add]
  | cons arc _ ih =>
    rw [add_assoc]
    exact Walk.cons arc (ih second)

theorem Walk.snoc (walk : Walk Arc a l b x) (arc : Arc b c y) : Walk Arc a (l ++ [c]) c (x + y) :=
  walk.append (Walk.arc arc)

theorem Walk.nil_inv (walk : Walk Arc a [] b x) : b = a ∧ x = 0 := by
  cases walk
  exact ⟨rfl, rfl⟩

theorem Walk.cons_inv (walk : Walk Arc a (b :: l) c x) : ∃ y z, Arc a b y ∧ Walk Arc b l c z ∧ x = y + z := by
  cases walk with
  | cons arc rest => exact ⟨_, _, arc, rest, rfl⟩

/-- The walk up to a node of it, and from there. -/
theorem Walk.split (walk : Walk Arc a l b x) {front back : List ι} (cut : a :: l = front ++ c :: back) :
    ∃ before y z, Walk Arc a before c y ∧ Walk Arc c back b z ∧ x = y + z ∧ a :: before = front ++ [c] := by
  induction walk generalizing front with
  | nil a =>
    cases front with
    | nil =>
      obtain ⟨rfl, rfl⟩ := List.cons.inj cut
      exact ⟨[], 0, 0, Walk.nil a, Walk.nil a, (add_zero 0).symm, rfl⟩
    | cons h front =>
      have empty : front ++ c :: back = [] := (List.cons.inj cut).2.symm
      exact absurd empty (by simp)
  | @cons a b' _ l x y arc rest ih =>
    cases front with
    | nil =>
      obtain ⟨rfl, rfl⟩ := List.cons.inj cut
      exact ⟨[], 0, x + y, Walk.nil a, Walk.cons arc rest, (zero_add _).symm, rfl⟩
    | cons h front =>
      obtain ⟨rfl, tail⟩ := List.cons.inj cut
      obtain ⟨before, y', z, first, second, sum, same⟩ := ih tail
      exact ⟨b' :: before, x + y', z, Walk.cons arc first, second, by rw [sum, add_assoc], by rw [same]; rfl⟩

theorem Walk.snoc_inv (walk : Walk Arc a (l ++ [b]) c x) :
    c = b ∧ ∃ d y z, Walk Arc a l d y ∧ Arc d b z ∧ x = y + z := by
  induction l generalizing a x with
  | nil =>
    obtain ⟨y, z, arc, rest, rfl⟩ := walk.cons_inv
    obtain ⟨rfl, rfl⟩ := rest.nil_inv
    exact ⟨rfl, a, 0, y, Walk.nil a, arc, by rw [add_zero, zero_add]⟩
  | cons h l ih =>
    obtain ⟨y, z, arc, rest, rfl⟩ := walk.cons_inv
    obtain ⟨same, d, y', z', first, last, rfl⟩ := ih rest
    exact ⟨same, d, y + y', z', Walk.cons arc first, last, (add_assoc y y' z').symm⟩

theorem Walk.last (walk : Walk Arc a l c x) (steps : l ≠ []) : ∃ d y, Arc d c y := by
  obtain ⟨m, b, rfl⟩ := (List.eq_nil_or_concat l).resolve_left steps
  rw [List.concat_eq_append] at walk
  obtain ⟨rfl, d, _, z, _, arc, _⟩ := walk.snoc_inv
  exact ⟨d, z, arc⟩

theorem Walk.arrives (walk : Walk Arc a l b x) (member : c ∈ l) : ∃ d y, Arc d c y := by
  induction walk with
  | nil a => exact absurd member List.not_mem_nil
  | cons arc _ ih =>
    rcases List.mem_cons.mp member with rfl | later
    · exact ⟨_, _, arc⟩
    · exact ih later

end Walks

section Least

variable [AddCommMonoid κ] [LinearOrder κ] {Arc : ι → ι → κ → Prop} {a b c d : ι} {l m : List ι} {x y z : κ}

/-- `x` is the cost of a cheapest walk. -/
structure Least (Arc : ι → ι → κ → Prop) (a b : ι) (x : κ) : Prop where
  walk : ∃ l, Walk Arc a l b x
  least : ∀ l y, Walk Arc a l b y → x ≤ y

theorem Least.unique (first : Least Arc a b x) (second : Least Arc a b y) : x = y := by
  obtain ⟨l, walk⟩ := first.walk
  obtain ⟨m, other⟩ := second.walk
  exact le_antisymm (first.least m y other) (second.least l x walk)

variable [IsOrderedCancelAddMonoid κ]

theorem Walk.nonneg (nonneg : ∀ a b x, Arc a b x → 0 ≤ x) (walk : Walk Arc a l b x) : 0 ≤ x := by
  induction walk with
  | nil a => exact le_rfl
  | cons arc _ ih => exact add_nonneg (nonneg _ _ _ arc) ih

theorem Walk.positive (positive : ∀ a b x, Arc a b x → 0 < x) (walk : Walk Arc a l b x) (steps : l ≠ []) : 0 < x := by
  cases walk with
  | nil => exact absurd rfl steps
  | cons arc rest => exact add_pos_of_pos_of_nonneg (positive _ _ _ arc) (rest.nonneg fun a b x arc => (positive a b x arc).le)

/-- The detours of a walk cost something or nothing. -/
theorem Walk.simple (nonneg : ∀ a b x, Arc a b x → 0 ≤ x) (walk : Walk Arc a l b x) :
    ∃ m y, Walk Arc a m b y ∧ (a :: m).Nodup ∧ y ≤ x := by
  induction walk with
  | nil a => exact ⟨[], 0, Walk.nil a, List.nodup_singleton a, le_rfl⟩
  | @cons a b c l x y arc _ ih =>
    obtain ⟨m, z, shorter, distinct, less⟩ := ih
    by_cases again : a ∈ b :: m
    · obtain ⟨front, back, cut⟩ := List.append_of_mem again
      obtain ⟨_, y', z', first, second, sum, _⟩ := shorter.split cut
      rw [cut] at distinct
      refine ⟨back, z', second, (List.nodup_append.mp distinct).2.1, ?_⟩
      calc z' ≤ y' + z' := le_add_of_nonneg_left (first.nonneg nonneg)
        _ ≤ y := sum ▸ less
        _ ≤ x + y := le_add_of_nonneg_left (nonneg _ _ _ arc)
    · exact ⟨b :: m, x + z, Walk.cons arc shorter, List.nodup_cons.mpr ⟨again, distinct⟩, add_le_add_right less x⟩

theorem Least.self (nonneg : ∀ a b x, Arc a b x → 0 ≤ x) (a : ι) : Least Arc a a 0 :=
  ⟨⟨[], Walk.nil a⟩, fun _ _ walk => walk.nonneg nonneg⟩

/-- The rest of a cheapest walk is a cheapest walk. -/
theorem Least.tail (least : Least Arc a b (x + y)) (first : Walk Arc a l c x) (second : Walk Arc c m b y) : Least Arc c b y :=
  ⟨⟨m, second⟩, fun _ _ walk => le_of_add_le_add_left (least.least _ _ (first.append walk))⟩

theorem Least.init (least : Least Arc a b (x + y)) (first : Walk Arc a l c x) (second : Walk Arc c m b y) : Least Arc a c x :=
  ⟨⟨l, first⟩, fun _ _ walk => le_of_add_le_add_right (least.least _ _ (walk.append second))⟩

/-- A walk without repetitions has at most as many steps as there are nodes. -/
theorem Walk.cost_le [DecidableEq ι] (nodes : Finset ι) (nonneg : 0 ≤ y) (heads : ∀ a b x, Arc a b x → b ∈ nodes)
    (each : ∀ a b x, Arc a b x → x ≤ y) (walk : Walk Arc a l b x) (distinct : l.Nodup) : x ≤ nodes.card • y := by
  have steps : x ≤ l.length • y := by
    clear distinct
    induction walk with
    | nil a => exact (zero_nsmul y).ge
    | cons arc _ ih =>
      rw [List.length_cons, succ_nsmul']
      exact add_le_add (each _ _ _ arc) ih
  refine steps.trans (nsmul_le_nsmul_left nonneg ?_)
  rw [← List.toFinset_card_of_nodup distinct]
  refine Finset.card_le_card fun v member => ?_
  obtain ⟨u, z, arc⟩ := walk.arrives (List.mem_toFinset.mp member)
  exact heads u v z arc

end Least

section Frontiers

variable [AddCommMonoid κ] [LinearOrder κ] [IsOrderedCancelAddMonoid κ] {Arc : ι → ι → κ → Prop} {top : κ} {k o v : ι}
  {node settled : ι → Prop} {label label' : ι → κ} {via via' : ι → ι} {l : List ι} {x : κ}

/-- The nodes other than the source `k`, and a cost `top` above that of every simple walk. -/
structure Network (Arc : ι → ι → κ → Prop) (top : κ) (k : ι) (node : ι → Prop) : Prop where
  nonneg : ∀ a b x, Arc a b x → 0 ≤ x
  source : ¬ node k
  tails : ∀ a b x, Arc a b x → a = k ∨ node a
  heads : ∀ a b x, Arc a b x → b = k ∨ node b
  below : ∀ l v x, Walk Arc k l v x → (k :: l).Nodup → x < top

/-- The labels while the nodes are settled one by one: those of walks over
settled nodes, the first step of which is `via`. -/
structure Frontier (Arc : ι → ι → κ → Prop) (top : κ) (k : ι) (node settled : ι → Prop) (label : ι → κ) (via : ι → ι) :
    Prop where
  reached : ∀ v, node v → label v < top → ∃ l, Walk Arc k (l ++ [v]) v (label v) ∧ (k :: (l ++ [v])).Nodup ∧
    (∀ w ∈ l, settled w) ∧ (l ++ [v]).head? = some (via v)
  bound : ∀ v, node v → label v ≤ top
  known : ∀ v, node v → settled v → label v < top
  direct : ∀ v x, node v → Arc k v x → label v ≤ x
  relaxed : ∀ o v x, node o → settled o → node v → Arc o v x → label v ≤ label o + x
  ordered : ∀ o v, node o → settled o → node v → ¬ settled v → label o ≤ label v

/-- What settling `o` does to the labels. -/
structure Relaxed (Arc : ι → ι → κ → Prop) (node settled : ι → Prop) (o : ι) (label : ι → κ) (via : ι → ι) (label' : ι → κ)
    (via' : ι → ι) : Prop where
  kept : ∀ v, node v → settled v ∨ v = o → label' v = label v ∧ via' v = via v
  changed : ∀ v, node v → ¬ settled v → v ≠ o →
    label' v = label v ∧ via' v = via v ∨ label' v < label v ∧ ∃ x, Arc o v x ∧ label' v = label o + x ∧ via' v = via o
  through : ∀ v x, node v → ¬ settled v → v ≠ o → Arc o v x → label' v ≤ label o + x

omit [IsOrderedCancelAddMonoid κ] in
theorem Relaxed.less (relax : Relaxed Arc node settled o label via label' via') (member : node v) : label' v ≤ label v := by
  by_cases done : settled v ∨ v = o
  · exact (relax.kept v member done).1.le
  · obtain ⟨unsettled, other⟩ := not_or.mp done
    rcases relax.changed v member unsettled other with ⟨same, _⟩ | ⟨less, _⟩
    · exact same.le
    · exact less.le

theorem Frontier.step (network : Network Arc top k node) (frontier : Frontier Arc top k node settled label via) (inside : node o)
    (fresh : ¬ settled o) (finite : label o < top) (least : ∀ v, node v → ¬ settled v → label o ≤ label v)
    (relax : Relaxed Arc node settled o label via label' via') :
    Frontier Arc top k node (fun v => settled v ∨ v = o) label' via' where
  reached v member below := by
    by_cases done : settled v ∨ v = o
    · obtain ⟨sameLabel, sameVia⟩ := relax.kept v member done
      rw [sameLabel] at below ⊢
      obtain ⟨l, walk, distinct, interior, first⟩ := frontier.reached v member below
      exact ⟨l, walk, distinct, fun w inside => Or.inl (interior w inside), by rw [sameVia, first]⟩
    · obtain ⟨unsettled, other⟩ := not_or.mp done
      rcases relax.changed v member unsettled other with ⟨sameLabel, sameVia⟩ | ⟨_, x, arc, newLabel, newVia⟩
      · rw [sameLabel] at below ⊢
        obtain ⟨l, walk, distinct, interior, first⟩ := frontier.reached v member below
        exact ⟨l, walk, distinct, fun w inside => Or.inl (interior w inside), by rw [sameVia, first]⟩
      · obtain ⟨l, walk, distinct, interior, first⟩ := frontier.reached o inside finite
        refine ⟨l ++ [o], ?_, ?_, fun w inside => ?_, ?_⟩
        · rw [newLabel]
          exact walk.snoc arc
        · have absent : v ∉ k :: (l ++ [o]) := fun again => by
            rcases List.mem_cons.mp again with source | later
            · exact network.source (source ▸ member)
            · rcases List.mem_append.mp later with between | last
              · exact unsettled (interior v between)
              · exact other (List.mem_singleton.mp last)
          rw [← List.cons_append]
          exact List.nodup_append_comm.mp (List.nodup_cons.mpr ⟨absent, distinct⟩)
        · rcases List.mem_append.mp inside with between | last
          · exact Or.inl (interior w between)
          · exact Or.inr (List.mem_singleton.mp last)
        · rw [newVia, ← first, List.head?_append_of_ne_nil _ (by simp)]
  bound v member := (relax.less member).trans (frontier.bound v member)
  known v member done := by
    rw [(relax.kept v member done).1]
    rcases done with settled | rfl
    · exact frontier.known v member settled
    · exact finite
  direct v x member arc := (relax.less member).trans (frontier.direct v x member arc)
  relaxed p v x known done member arc := by
    have more := le_add_of_nonneg_right (a := label p) (network.nonneg p v x arc)
    rw [(relax.kept p known done).1]
    by_cases old : settled v ∨ v = o
    · rw [(relax.kept v member old).1]
      rcases done with settledP | rfl
      · exact frontier.relaxed p v x known settledP member arc
      · rcases old with settledV | rfl
        · exact (frontier.ordered v p member settledV inside fresh).trans more
        · exact more
    · obtain ⟨unsettled, other⟩ := not_or.mp old
      rcases done with settledP | rfl
      · exact (relax.less member).trans (frontier.relaxed p v x known settledP member arc)
      · exact relax.through v x member unsettled other arc
  ordered p v known done member new := by
    obtain ⟨unsettled, other⟩ := not_or.mp new
    rw [(relax.kept p known done).1]
    have low : label p ≤ label o := by
      rcases done with settledP | rfl
      · exact frontier.ordered p o known settledP inside fresh
      · exact le_rfl
    rcases relax.changed v member unsettled other with ⟨sameLabel, _⟩ | ⟨_, x, arc, newLabel, _⟩
    · rw [sameLabel]
      exact low.trans (least v member unsettled)
    · rw [newLabel]
      exact low.trans (le_add_of_nonneg_right (network.nonneg o v x arc))

omit [IsOrderedCancelAddMonoid κ] in
/-- Only what the arrays hold for the nodes counts. -/
theorem Frontier.same {settled' : ι → Prop} (frontier : Frontier Arc top k node settled label via)
    (more : ∀ v, settled v → settled' v) (fewer : ∀ v, node v → settled' v → settled v)
    (labels : ∀ v, node v → label' v = label v) (vias : ∀ v, node v → via' v = via v) :
    Frontier Arc top k node settled' label' via' where
  reached v member below := by
    rw [labels v member] at below ⊢
    obtain ⟨l, walk, distinct, interior, first⟩ := frontier.reached v member below
    exact ⟨l, walk, distinct, fun w inside => more w (interior w inside), by rw [vias v member, first]⟩
  bound v member := (labels v member).trans_le (frontier.bound v member)
  known v member done := (labels v member).trans_lt (frontier.known v member (fewer v member done))
  direct v x member arc := (labels v member).trans_le (frontier.direct v x member arc)
  relaxed o v x inside done member arc := by
    rw [labels v member, labels o inside]
    exact frontier.relaxed o v x inside (fewer o inside done) member arc
  ordered o v inside done member fresh := by
    rw [labels v member, labels o inside]
    exact frontier.ordered o v inside (fewer o inside done) member fun settled => fresh (more v settled)

/-- When no node is left below `top`, the labels are the costs of cheapest walks. -/
theorem Frontier.finish (network : Network Arc top k node) (frontier : Frontier Arc top k node settled label via)
    (all : ∀ v, node v → ¬ settled v → top ≤ label v) (member : node v) (walk : Walk Arc k l v x) :
    label v < top ∧ label v ≤ x := by
  induction l using List.reverseRecOn generalizing v x with
  | nil =>
    obtain ⟨rfl, _⟩ := walk.nil_inv
    exact absurd member network.source
  | append_singleton l b ih =>
    obtain ⟨rfl, d, y, z, first, arc, rfl⟩ := walk.snoc_inv
    rcases network.tails d v z arc with rfl | known
    · have single := network.below [v] v z (Walk.arc arc) (by
        rw [List.nodup_cons, List.mem_singleton]
        exact ⟨fun same => network.source (same ▸ member), List.nodup_singleton v⟩)
      have direct := frontier.direct v z member arc
      exact ⟨direct.trans_lt single, direct.trans (le_add_of_nonneg_left (first.nonneg network.nonneg))⟩
    · obtain ⟨finite, least⟩ := ih known first
      have settledD : settled d := by
        by_contra left
        exact absurd (all d known left) (not_le.mpr finite)
      have through := frontier.relaxed d v z known settledD member arc
      refine ⟨?_, through.trans (add_le_add_left least z)⟩
      by_cases done : settled v
      · exact frontier.known v member done
      · obtain ⟨m, path, distinct, interior, _⟩ := frontier.reached d known finite
        refine through.trans_lt (network.below _ v _ (path.snoc arc) ?_)
        have absent : v ∉ k :: (m ++ [d]) := fun again => by
          rcases List.mem_cons.mp again with source | later
          · exact network.source (source ▸ member)
          · rcases List.mem_append.mp later with between | last
            · exact done (interior v between)
            · exact done (List.mem_singleton.mp last ▸ settledD)
        rw [← List.cons_append]
        exact List.nodup_append_comm.mp (List.nodup_cons.mpr ⟨absent, distinct⟩)

/-- The label of a node that can be reached, and the first step of a cheapest walk there. -/
theorem Frontier.least (network : Network Arc top k node) (frontier : Frontier Arc top k node settled label via)
    (all : ∀ v, node v → ¬ settled v → top ≤ label v) (member : node v) (finite : label v < top) :
    Least Arc k v (label v) ∧ ∃ y z, Arc k (via v) y ∧ Least Arc (via v) v z ∧ label v = y + z := by
  obtain ⟨l, walk, _, _, first⟩ := frontier.reached v member finite
  have least : Least Arc k v (label v) := ⟨⟨_, walk⟩, fun m y other => (frontier.finish network all member other).2⟩
  refine ⟨least, ?_⟩
  obtain ⟨m, whole⟩ : ∃ m, l ++ [v] = via v :: m := List.head?_eq_some_iff.mp first
  rw [whole] at walk
  obtain ⟨y, z, arc, rest, sum⟩ := walk.cons_inv
  rw [sum] at least
  exact ⟨y, z, arc, least.tail (Walk.arc arc) rest, sum⟩

end Frontiers

section Following

variable [DecidableEq ι] [AddCommMonoid κ] [LinearOrder κ] [IsOrderedCancelAddMonoid κ] {Arc : ι → ι → κ → Prop} {a d : ι} {x : κ}
  {next : ι → ι}

/-- The nodes after `a` that following `next` visits, up to `d`. -/
def trace (next : ι → ι) (d : ι) : ℕ → ι → List ι
  | 0, _ => []
  | n + 1, a => if a = d then [] else next a :: trace next d n (next a)

/-- Next hops that lie on cheapest walks are a cheapest walk themselves. -/
theorem trace_least (nodes : Finset ι) (positive : ∀ a b x, Arc a b x → 0 < x) (heads : ∀ a b x, Arc a b x → b ∈ nodes)
    (toward : ∀ a x, a ≠ d → Least Arc a d x → ∃ y z, Arc a (next a) y ∧ Least Arc (next a) d z ∧ x = y + z)
    (least : Least Arc a d x) : ∃ m, Walk Arc a (trace next d m a) d x ∧ (a :: trace next d m a).Nodup ∧
      ∀ c ∈ trace next d m a, ∃ z, Least Arc c d z ∧ z < x := by
  classical
  -- on the number of nodes that are nearer to `d`
  obtain ⟨n, count⟩ : ∃ n, (nodes.filter fun c => ∃ z, Least Arc c d z ∧ z < x).card = n := ⟨_, rfl⟩
  induction n using Nat.strong_induction_on generalizing a x with
  | _ n ih =>
    by_cases done : a = d
    · subst done
      have zero : x = 0 := least.unique (Least.self (fun a b x arc => (positive a b x arc).le) a)
      rw [zero]
      exact ⟨0, Walk.nil a, List.nodup_singleton a, fun c member => absurd member List.not_mem_nil⟩
    · obtain ⟨y, z, arc, rest, rfl⟩ := toward a x done least
      have nearer : z < y + z := lt_add_of_pos_left z (positive _ _ _ arc)
      have fewer : (nodes.filter fun c => ∃ w, Least Arc c d w ∧ w < z).card < n := by
        rw [← count]
        refine Finset.card_lt_card (Finset.ssubset_iff_of_subset (fun c member => ?_) |>.mpr ⟨next a, ?_, ?_⟩)
        · obtain ⟨inside, w, leastC, less⟩ := Finset.mem_filter.mp member
          exact Finset.mem_filter.mpr ⟨inside, w, leastC, less.trans nearer⟩
        · exact Finset.mem_filter.mpr ⟨heads _ _ _ arc, z, rest, nearer⟩
        · intro member
          obtain ⟨_, w, leastC, less⟩ := Finset.mem_filter.mp member
          exact absurd less (by rw [leastC.unique rest]; exact lt_irrefl z)
      obtain ⟨m, walk, distinct, closer⟩ := ih _ fewer rest rfl
      have tail : trace next d (m + 1) a = next a :: trace next d m (next a) := if_neg done
      have all : ∀ c ∈ trace next d (m + 1) a, ∃ w, Least Arc c d w ∧ w < y + z := fun c member => by
        rw [tail] at member
        rcases List.mem_cons.mp member with rfl | later
        · exact ⟨z, rest, nearer⟩
        · obtain ⟨w, leastC, less⟩ := closer c later
          exact ⟨w, leastC, less.trans nearer⟩
      refine ⟨m + 1, ?_, List.nodup_cons.mpr ⟨fun again => ?_, ?_⟩, all⟩
      · rw [tail]
        exact Walk.cons arc walk
      · obtain ⟨w, leastA, less⟩ := all a again
        exact absurd less (by rw [leastA.unique least]; exact lt_irrefl _)
      · rw [tail]
        exact distinct

end Following
