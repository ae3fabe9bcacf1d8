import Ns2.Library.ShortestPath
import Ns2.Routing.RouteLogicCosts

namespace Ns2.RouteLogic

/-- A link and its cost. -/
def Arc (known : ℕ → ℕ → Option ℚ) (a b : ℕ) (x : ℚ) : Prop := known a b = some x

/-- What is asked of the links: positive costs, and no walk without repetitions
that costs as much as `infinity`. Node 0 is none of theirs. -/
structure Admitted (known : ℕ → ℕ → Option ℚ) : Prop where
  positive : ∀ a b x, Arc known a b x → 0 < x
  ids : ∀ a b x, Arc known a b x → 1 ≤ a ∧ 1 ≤ b
  below : ∀ a l b x, Walk (Arc known) a l b x → (a :: l).Nodup → x < infinity

section Source

variable {s : RouteLogic} {known : ℕ → ℕ → Option ℚ} {k o v : ℕ} {w : Work} {x : ℚ}

theorem mem_nodes : v ∈ s.nodes ↔ 1 ≤ v ∧ v < s.size := by
  rw [nodes, List.mem_range'_1]
  omega

theorem nodes_nodup (s : RouteLogic) : s.nodes.Nodup := List.nodup_range'

theorem Built.adj_some (built : Built s known) (admitted : Admitted known) (apart : o ≠ v) (arc : Arc known o v x) :
    s.ADJ o v = x ∧ x < infinity := by
  obtain ⟨left, right⟩ := built.inside o v x arc
  refine ⟨?_, admitted.below o [v] v x (Walk.arc arc) ?_⟩
  · rw [built.cost o v left right, show known o v = some x from arc]
    rfl
  · rw [List.nodup_cons, List.mem_singleton]
    exact ⟨apart, List.nodup_singleton v⟩

theorem Built.adj_none (built : Built s known) (left : o < s.size) (right : v < s.size) (none : known o v = none) :
    s.ADJ o v = infinity := by
  rw [built.cost o v left right, none]
  rfl

/-- The nodes but the source. -/
def Other (s : RouteLogic) (k v : ℕ) : Prop := v ∈ s.nodes ∧ v ≠ k

theorem network (built : Built s known) (admitted : Admitted known) (k : ℕ) : Network (Arc known) infinity k (s.Other k) where
  nonneg a b x arc := (admitted.positive a b x arc).le
  source inside := inside.2 rfl
  tails a b x arc := (eq_or_ne a k).imp_right fun other =>
    ⟨mem_nodes.mpr ⟨(admitted.ids a b x arc).1, (built.inside a b x arc).1⟩, other⟩
  heads a b x arc := (eq_or_ne b k).imp_right fun other =>
    ⟨mem_nodes.mpr ⟨(admitted.ids a b x arc).2, (built.inside a b x arc).2⟩, other⟩
  below l v x walk distinct := admitted.below k l v x walk distinct

def hop (s : RouteLogic) (w : Work) (k v : ℕ) : ℕ := (w.route (index k v s.size)).nextHop

/-- The work for the source `k`: the labels of the nodes, and no hop for those without one. -/
structure Tour (s : RouteLogic) (known : ℕ → ℕ → Option ℚ) (k : ℕ) (w : Work) : Prop where
  frontier : Frontier (Arc known) infinity k (s.Other k) (fun v => w.parent v = k) w.hopcnt (s.hop w k)
  blank : ∀ v, s.Other k v → ¬ w.hopcnt v < infinity → s.hop w k v = 0
  own : w.parent k = k

/-- No node is left that can be reached. -/
def Finished (s : RouteLogic) (k : ℕ) (w : Work) : Prop := ∀ v, s.Other k v → w.parent v ≠ k → infinity ≤ w.hopcnt v

/-- The cell of `v` in the arrays, for the source `k`. -/
def cell (s : RouteLogic) (k : ℕ) (w : Work) (v : ℕ) : ℚ × RouteEntry := (w.hopcnt v, w.route (index k v s.size))

theorem neighbour_own (w : Work) (other : v ≠ o) : s.cell k (s.neighbour k w o) v = s.cell k w v := by
  unfold neighbour
  simp only
  split_ifs <;> simp [cell, Function.update_of_ne other, Function.update_of_ne (index_row other)]

theorem relax_own (w : Work) {u : ℕ} (other : v ≠ u) : s.cell k (s.relax k o w u) v = s.cell k w v := by
  unfold relax
  split_ifs <;> simp [cell, Function.update_of_ne other, Function.update_of_ne (index_row other)]

theorem neighbour_parent (w : Work) (v : ℕ) : (s.neighbour k w v).parent = w.parent := by
  unfold neighbour
  simp only
  split_ifs <;> rfl

theorem relax_parent (w : Work) (v : ℕ) : (s.relax k o w v).parent = w.parent := by
  unfold relax
  split_ifs <;> rfl

/-- The routes for all neighbours are set first. -/
theorem neighbours_tour (built : Built s known) (admitted : Admitted known) (source : k ∈ s.nodes) (start : w.parent = id)
    (blank : ∀ v ∈ s.nodes, s.hop w k v = 0) : Tour s known k (s.nodes.foldl (s.neighbour k) w) := by
  have parent : (s.nodes.foldl (s.neighbour k) w).parent = id :=
    Sweep.foldl_kept (P := fun w => w.parent = id) (fun w v _ same => (neighbour_parent w v).trans same) start
  have own : ∀ v, s.Other k v → (s.nodes.foldl (s.neighbour k) w).hopcnt v = s.ADJ k v ∧
      s.hop (s.nodes.foldl (s.neighbour k) w) k v = if s.ADJ k v ≠ infinity then v else 0 := by
    intro v member
    obtain ⟨mid, last, same, parent⟩ := Sweep.foldl_own (s := w) (P := fun w => w.parent = id) (s.cell k)
      (fun w v _ other => neighbour_own w other) (fun w v _ same => (neighbour_parent w v).trans same) (nodes_nodup s) member.1 start
    have unsettled : mid.parent v ≠ k := by
      rw [parent]
      exact member.2
    have before : mid.route (index k v s.size) = w.route (index k v s.size) := congrArg Prod.snd same
    have turn : s.cell k (s.neighbour k mid v) v = (s.ADJ k v,
        if s.ADJ k v ≠ infinity then ⟨v, (s.adj (index k v s.size)).entry⟩ else w.route (index k v s.size)) := by
      rw [neighbour, if_pos unsettled]
      simp only [Function.update_self]
      split_ifs with finite
      · simp [cell]
      · simp [cell, before]
    rw [turn] at last
    refine ⟨congrArg Prod.fst last, ?_⟩
    have entry := congrArg (fun cell => cell.2.nextHop) last
    refine entry.trans ?_
    split_ifs
    · rfl
    · exact blank v member.1
  have known' : ∀ v, s.Other k v → s.ADJ k v < infinity → Arc known k v (s.ADJ k v) := by
    intro v member finite
    cases same : known k v with
    | none =>
      rw [built.adj_none (mem_nodes.mp source).2 (mem_nodes.mp member.1).2 same] at finite
      exact absurd finite (lt_irrefl _)
    | some x =>
      rw [(built.adj_some admitted member.2.symm same).1]
      exact same
  have top : ∀ v, s.Other k v → s.ADJ k v ≤ infinity := by
    intro v member
    cases same : known k v with
    | none => exact (built.adj_none (mem_nodes.mp source).2 (mem_nodes.mp member.1).2 same).le
    | some x =>
      obtain ⟨cost, below⟩ := built.adj_some admitted member.2.symm same
      rw [cost]
      exact below.le
  have unsettled : ∀ v, s.Other k v → (s.nodes.foldl (s.neighbour k) w).parent v ≠ k := fun v member => by
    rw [parent]
    exact member.2
  refine ⟨⟨fun v member finite => ?_, fun v member => ?_, fun v member settled => absurd settled (unsettled v member),
    fun v x member arc => ?_, fun o v x member settled => absurd settled (unsettled o member),
    fun o v member settled => absurd settled (unsettled o member)⟩, fun v member infinite => ?_, by rw [parent]; rfl⟩
  · rw [(own v member).1] at finite ⊢
    refine ⟨[], Walk.arc (known' v member finite), ?_, fun w inside => absurd inside List.not_mem_nil, ?_⟩
    · rw [List.nil_append, List.nodup_cons, List.mem_singleton]
      exact ⟨member.2.symm, List.nodup_singleton v⟩
    · rw [(own v member).2, if_pos finite.ne]
      rfl
  · rw [(own v member).1]
    exact top v member
  · rw [(own v member).1, (built.adj_some admitted member.2.symm arc).1]
  · rw [(own v member).1] at infinite
    have same := le_antisymm (top v member) (not_lt.mp infinite)
    rw [(own v member).2, if_neg (not_not.mpr same)]

theorem nearest_spec (s : RouteLogic) (k : ℕ) (w : Work) : (s.nearest k w = 0 ∨ s.nearest k w ∈ s.nodes ∧
    w.parent (s.nearest k w) ≠ k ∧ w.hopcnt (s.nearest k w) < w.hopcnt 0) ∧
    ∀ v ∈ s.nodes, w.parent v ≠ k → w.hopcnt (s.nearest k w) ≤ w.hopcnt v := by
  unfold nearest
  induction s.nodes using List.reverseRecOn with
  | nil => exact ⟨Or.inl rfl, nofun⟩
  | append_singleton l u ih =>
    obtain ⟨place, least⟩ := ih
    rw [List.foldl_append, List.foldl_cons, List.foldl_nil]
    generalize l.foldl (fun o v => if w.parent v ≠ k ∧ w.hopcnt v < w.hopcnt o then v else o) 0 = o at place least
    have low : w.hopcnt o ≤ w.hopcnt 0 := by
      rcases place with rfl | ⟨_, _, less⟩
      · exact le_rfl
      · exact less.le
    split_ifs with better
    · refine ⟨Or.inr ⟨List.mem_append_right l (List.mem_singleton_self u), better.1, better.2.trans_le low⟩, fun v member free => ?_⟩
      rcases List.mem_append.mp member with before | last
      · exact better.2.le.trans (least v before free)
      · rw [List.mem_singleton.mp last]
    · refine ⟨place.imp_right fun inner => ⟨List.mem_append_left [u] inner.1, inner.2⟩, fun v member free => ?_⟩
      rcases List.mem_append.mp member with before | last
      · exact least v before free
      · rw [List.mem_singleton.mp last] at free ⊢
        exact not_lt.mp fun less => better ⟨free, less⟩

/-- The loop of `visit` reads the cell of `o` only, and no turn writes it. -/
theorem relax_cells (own : w.parent o = k) (member : v ∈ s.nodes) :
    s.cell k (s.nodes.foldl (s.relax k o) w) v = if w.parent v ≠ k ∧ w.hopcnt o + s.ADJ o v < w.hopcnt v then
      (w.hopcnt o + s.ADJ o v, w.route (index k o s.size)) else s.cell k w v := by
  obtain ⟨mid, last, same, parent, source⟩ := Sweep.foldl_own (s := w)
    (P := fun t => t.parent = w.parent ∧ s.cell k t o = s.cell k w o) (s.cell k) (fun w v _ other => relax_own w other)
    (fun t u _ ⟨parent, source⟩ => ⟨(relax_parent t u).trans parent, by
      by_cases other : o = u
      · rw [relax, if_neg fun both => both.1 (by rw [← other, parent, own])]
        exact source
      · exact (relax_own t other).trans source⟩) (nodes_nodup s) member ⟨rfl, rfl⟩
  rw [last, relax, parent, show mid.hopcnt v = w.hopcnt v from congrArg Prod.fst same,
    show mid.hopcnt o = w.hopcnt o from congrArg Prod.fst source]
  split_ifs with better
  · rw [cell, show mid.route (index k o s.size) = w.route (index k o s.size) from congrArg Prod.snd source]
    simp
  · exact same

theorem relax_parents (w : Work) : (s.nodes.foldl (s.relax k o) w).parent = w.parent :=
  Sweep.foldl_kept (P := fun t => t.parent = w.parent) (fun t u _ same => (relax_parent t u).trans same) rfl

/-- The nodes not settled yet. -/
def pending (s : RouteLogic) (k : ℕ) (w : Work) : ℕ := (s.nodes.filter fun v => w.parent v ≠ k).length

theorem pending_settled (member : o ∈ s.nodes) (fresh : w.parent o ≠ k) {w' : Work} (settled : w'.parent = Function.update w.parent o k) :
    s.pending k w' < s.pending k w := by
  have fewer : (s.nodes.filter fun v => w'.parent v ≠ k) = (s.nodes.filter fun v => w.parent v ≠ k).filter fun v => v ≠ o := by
    rw [List.filter_filter]
    refine List.filter_congr fun v _ => ?_
    rw [settled, Function.update_apply]
    by_cases own : v = o <;> simp [own]
  rw [pending, pending, fewer, List.length_filter_lt_length_iff_exists]
  exact ⟨o, List.mem_filter.mpr ⟨member, by simpa using fresh⟩, by simp⟩

/-- A turn that settles the nearest node. -/
theorem settle_relaxed (built : Built s known) (admitted : Admitted known) (tour : Tour s known k w) (inside : s.Other k o)
    (finite : w.hopcnt o < infinity) {w' : Work} (turn : w' = s.nodes.foldl (s.relax k o)
      ⟨Function.update w.parent o k, Function.update w.hopcnt 0 infinity, w.route⟩) :
    Relaxed (Arc known) (s.Other k) (fun v => w.parent v = k) o w.hopcnt (s.hop w k) w'.hopcnt (s.hop w' k) := by
  have left : ∀ v, s.Other k v → v ≠ 0 := fun v member => Nat.one_le_iff_ne_zero.mp (mem_nodes.mp member.1).1
  have bounds : ∀ v, s.Other k v → v < s.size := fun v member => (mem_nodes.mp member.1).2
  have cells : ∀ v, s.Other k v → s.cell k w' v = if (¬ w.parent v = k ∧ v ≠ o) ∧ w.hopcnt o + s.ADJ o v < w.hopcnt v then
      (w.hopcnt o + s.ADJ o v, w.route (index k o s.size)) else s.cell k w v := by
    intro v member
    rw [turn, relax_cells (by exact Function.update_self ..) member.1]
    simp only [cell, Function.update_of_ne (left v member), Function.update_of_ne (left o inside)]
    refine if_congr (and_congr_left fun _ => ?_) rfl rfl
    by_cases own : v = o <;> simp [own]
  have skipped : ∀ v, s.Other k v → ¬ ((¬ w.parent v = k ∧ v ≠ o) ∧ w.hopcnt o + s.ADJ o v < w.hopcnt v) →
      w'.hopcnt v = w.hopcnt v ∧ s.hop w' k v = s.hop w k v := fun v member skip => by
    have same := cells v member
    rw [if_neg skip] at same
    exact ⟨congrArg Prod.fst same, congrArg (fun cell => cell.2.nextHop) same⟩
  have taken : ∀ v, s.Other k v → (¬ w.parent v = k ∧ v ≠ o) ∧ w.hopcnt o + s.ADJ o v < w.hopcnt v →
      w'.hopcnt v = w.hopcnt o + s.ADJ o v ∧ s.hop w' k v = s.hop w k o := fun v member take => by
    have same := cells v member
    rw [if_pos take] at same
    exact ⟨congrArg Prod.fst same, congrArg (fun cell => cell.2.nextHop) same⟩
  refine ⟨fun v member done => ?_, fun v member free other => ?_, fun v x member free other arc => ?_⟩
  · exact skipped v member fun take => done.elim take.1.1 take.1.2
  · by_cases better : w.hopcnt o + s.ADJ o v < w.hopcnt v
    · obtain ⟨label, via⟩ := taken v member ⟨⟨free, other⟩, better⟩
      refine Or.inr ⟨label.trans_lt better, s.ADJ o v, ?_, label, via⟩
      cases same : known o v with
      | none =>
        -- a sum with `infinity` is never less
        obtain ⟨l, walk, _⟩ := tour.frontier.reached o inside finite
        have nonneg := walk.nonneg fun a b x arc => (admitted.positive a b x arc).le
        have top := tour.frontier.bound v member
        rw [built.adj_none (bounds o inside) (bounds v member) same] at better
        exact absurd (better.trans_le top) (not_lt.mpr (le_add_of_nonneg_left nonneg))
      | some x =>
        rw [(built.adj_some admitted other.symm same).1]
        exact same
    · exact Or.inl (skipped v member fun take => better take.2)
  · rw [← (built.adj_some admitted other.symm arc).1]
    by_cases better : w.hopcnt o + s.ADJ o v < w.hopcnt v
    · exact (taken v member ⟨⟨free, other⟩, better⟩).1.le
    · exact (skipped v member fun take => better take.2).1.trans_le (not_lt.mp better)

theorem visit_tour (built : Built s known) (admitted : Admitted known) (source : k ∈ s.nodes) (tour : Tour s known k w) :
    Tour s known k (s.visit k w) ∧ (s.Finished k (s.visit k w) ∨ ¬ s.Finished k w ∧ s.pending k (s.visit k w) < s.pending k w) := by
  let start : Work := { w with hopcnt := Function.update w.hopcnt 0 infinity }
  have left : ∀ v, v ∈ s.nodes → v ≠ 0 := fun v member => Nat.one_le_iff_ne_zero.mp (mem_nodes.mp member).1
  have same : ∀ v ∈ s.nodes, start.hopcnt v = w.hopcnt v := fun v member => Function.update_of_ne (left v member) _ _
  have sentinel : start.hopcnt 0 = infinity := by simp [start]
  obtain ⟨place, least⟩ := nearest_spec s k start
  by_cases none : s.nearest k start = 0
  · have turn : s.visit k w = { start with parent := Function.update w.parent 0 k } := by
      rw [visit]
      exact (if_pos none).trans (by rw [none])
    have parent : ∀ v ∈ s.nodes, (s.visit k w).parent v = w.parent v := fun v member => by
      rw [turn]
      exact Function.update_of_ne (left v member) _ _
    have hopcnt : ∀ v ∈ s.nodes, (s.visit k w).hopcnt v = w.hopcnt v := fun v member => by rw [turn, same v member]
    have hop : s.hop (s.visit k w) k = s.hop w k := by
      rw [turn]
      rfl
    refine ⟨⟨tour.frontier.same (fun v done => ?_) (fun v member done => (parent v member.1).symm.trans done)
      (fun v member => hopcnt v member.1) (fun v _ => congrFun hop v), fun v member infinite => ?_, ?_⟩, Or.inl fun v member free => ?_⟩
    · rw [turn]
      by_cases zero : v = 0
      · simp [zero]
      · exact (Function.update_of_ne zero _ _).trans done
    · rw [hop]
      rw [hopcnt v member.1] at infinite
      exact tour.blank v member infinite
    · exact (parent k source).trans tour.own
    · rw [parent v member.1] at free
      rw [hopcnt v member.1, ← same v member.1, ← sentinel]
      have low := least v member.1 free
      rwa [none] at low
  · obtain ⟨member, fresh, finite⟩ := place.resolve_left none
    have turn : s.visit k w = s.nodes.foldl (s.relax k (s.nearest k start))
        ⟨Function.update w.parent (s.nearest k start) k, Function.update w.hopcnt 0 infinity, w.route⟩ := if_neg none
    generalize s.nearest k start = o at member fresh finite least turn
    have inside : s.Other k o := ⟨member, fun own => fresh (by rw [own]; exact tour.own)⟩
    rw [same o member, sentinel] at finite
    have parent : (s.visit k w).parent = Function.update w.parent o k := by rw [turn, relax_parents]
    have settled : (fun v => (s.visit k w).parent v = k) = fun v => w.parent v = k ∨ v = o := by
      funext v
      rw [parent]
      by_cases own : v = o <;> simp [own]
    have relaxed := settle_relaxed built admitted tour inside finite turn
    refine ⟨⟨?_, fun v other infinite => ?_, ?_⟩, Or.inr ⟨fun finished => ?_, pending_settled member fresh parent⟩⟩
    · rw [settled]
      refine tour.frontier.step (network built admitted k) inside fresh finite (fun v other free => ?_) relaxed
      rw [← same o member, ← same v other.1]
      exact least v other.1 free
    · have before : ¬ w.hopcnt v < infinity := fun low => infinite ((relaxed.less other).trans_lt low)
      by_cases done : w.parent v = k ∨ v = o
      · rw [(relaxed.kept v other done).2]
        exact tour.blank v other before
      · obtain ⟨free, apart⟩ := not_or.mp done
        rcases relaxed.changed v other free apart with ⟨_, via⟩ | ⟨less, _⟩
        · rw [via]
          exact tour.blank v other before
        · exact absurd (less.trans_le (tour.frontier.bound v other)) infinite
    · rw [parent, Function.update_apply]
      split_ifs
      · rfl
      · exact tour.own
    · exact absurd (finished o inside fresh) (not_le.mpr finite)

theorem turns_tour (built : Built s known) (admitted : Admitted known) (source : k ∈ s.nodes) (turns : List ℕ) (tour : Tour s known k w)
    (enough : s.Finished k w ∨ s.pending k w ≤ turns.length) :
    Tour s known k (turns.foldl (fun w _ => s.visit k w) w) ∧ s.Finished k (turns.foldl (fun w _ => s.visit k w) w) := by
  induction turns generalizing w with
  | nil =>
    refine ⟨tour, enough.elim id fun few v member fresh => ?_⟩
    have none : (s.nodes.filter fun v => w.parent v ≠ k) = [] := List.length_eq_zero_iff.mp (Nat.le_zero.mp few)
    exact absurd (List.mem_filter.mpr ⟨member.1, by simpa using fresh⟩) (none ▸ List.not_mem_nil)
  | cons turn turns ih =>
    obtain ⟨next, progress⟩ := visit_tour built admitted source tour
    refine ih next (progress.imp_right fun ⟨unfinished, less⟩ => ?_)
    exact Nat.lt_succ_iff.mp (less.trans_le (enough.resolve_left unfinished))

/-- The next hop from `k` towards `d` is 0 where there is no walk, and else begins a cheapest one. -/
def Hop (known : ℕ → ℕ → Option ℚ) (k d h : ℕ) : Prop :=
  h = 0 ∧ (∀ l x, ¬ Walk (Arc known) k l d x) ∨
    h ≠ 0 ∧ ∃ y z, Arc known k h y ∧ Least (Arc known) h d z ∧ Least (Arc known) k d (y + z)

theorem source_hop (built : Built s known) (admitted : Admitted known) (source : k ∈ s.nodes) (blank : ∀ v ∈ s.nodes, s.hop w k v = 0)
    (member : s.Other k v) : Hop known k v (s.hop (s.source w k) k v) := by
  have first := neighbours_tour (w := { w with parent := id }) built admitted source rfl blank
  obtain ⟨tour, finished⟩ := turns_tour built admitted source s.nodes first (Or.inr (List.length_filter_le _ _))
  have through := network built admitted k
  by_cases finite : (s.source w k).hopcnt v < infinity
  · obtain ⟨least, y, z, arc, rest, sum⟩ := tour.frontier.least through finished member finite
    have positive : s.hop (s.source w k) k v ≠ 0 := Nat.one_le_iff_ne_zero.mp (admitted.ids _ _ _ arc).2
    exact Or.inr ⟨positive, y, z, arc, rest, sum ▸ least⟩
  · exact Or.inl ⟨tour.blank v member finite, fun l x walk => finite (tour.frontier.finish through finished member walk).1⟩

/-- A source writes its own row only. -/
theorem source_other (w : Work) (other : k ≠ o) (inside : v < s.size) : s.hop (s.source w o) k v = s.hop w k v := by
  have apart : ∀ u ∈ s.nodes, index k v s.size ≠ index o u s.size := fun u member same =>
    other (index_inj inside (mem_nodes.mp member).2 same).1
  have relaxes : ∀ p w, ∀ u ∈ s.nodes, s.hop (s.relax o p w u) k v = s.hop w k v := fun p w u member => by
    unfold relax
    split_ifs <;> simp [hop, Function.update_of_ne (apart u member)]
  have neighbours : ∀ w, ∀ u ∈ s.nodes, s.hop (s.neighbour o w u) k v = s.hop w k v := fun w u member => by
    unfold neighbour
    simp only
    split_ifs <;> simp [hop, Function.update_of_ne (apart u member)]
  have visits : ∀ w, s.hop (s.visit o w) k v = s.hop w k v := fun w => by
    rw [visit]
    simp only
    split_ifs
    · rfl
    · exact Sweep.foldl_kept (P := fun t => s.hop t k v = s.hop w k v)
        (fun t u member same => (relaxes _ t u member).trans same) rfl
  have start := Sweep.foldl_kept (f := s.neighbour o) (s := { w with parent := id }) (P := fun t => s.hop t k v = s.hop w k v)
    (fun t u member same => (neighbours t u member).trans same) rfl
  exact Sweep.foldl_kept (P := fun t => s.hop t k v = s.hop w k v) (fun t u _ same => (visits t).trans same) start

theorem computeRoutes_hop (built : Built s known) (admitted : Admitted known) (hopcnt : ℕ → ℚ) (source : k ∈ s.nodes)
    (member : s.Other k v) : Hop known k v ((s.computeRoutes hopcnt).ROUTE k v) := by
  let row (w : Work) (k : ℕ) (v : Fin s.size) : ℕ := s.hop w k v
  obtain ⟨mid, last, same, _⟩ := Sweep.foldl_own (s := ⟨id, hopcnt, fun _ => ⟨0, 0⟩⟩) (P := fun _ => True) row
    (fun w o _ other => funext fun u => source_other w other u.2) (fun _ _ _ _ => trivial) (nodes_nodup s) source trivial
  have blank : ∀ v ∈ s.nodes, s.hop mid k v = 0 := fun v inside => congrFun same ⟨v, (mem_nodes.mp inside).2⟩
  have hop := congrFun last ⟨v, (mem_nodes.mp member.1).2⟩
  have selves : (s.computeRoutes hopcnt).ROUTE k v = s.hop (s.nodes.foldl s.source ⟨id, hopcnt, fun _ => ⟨0, 0⟩⟩) k v := by
    refine Sweep.foldl_kept (P := fun route : ℕ → RouteEntry => (route (index k v s.size)).nextHop = _) (fun route u inside kept => ?_) rfl
    have apart : index k v s.size ≠ index u u s.size := fun equal => by
      obtain ⟨row, column⟩ := index_inj (mem_nodes.mp member.1).2 (mem_nodes.mp inside).2 equal
      exact member.2 (column.trans row.symm)
    exact (congrArg RouteEntry.nextHop (Function.update_of_ne apart _ _)).trans kept
  rw [selves, show s.hop _ k v = s.hop (s.source mid k) k v from hop]
  exact source_hop built admitted source blank member

end Source

section Calls

variable {calls : List Call} {known : ℕ → ℕ → Option ℚ} {a b : ℕ} {x : ℚ}

theorem links_call (arc : Arc (links calls) a b x) : ∃ call ∈ calls, a = call.src ∧ b = call.dst ∧ x = call.cost := by
  induction calls using List.reverseRecOn with
  | nil => exact absurd arc nofun
  | append_singleton calls call ih =>
    have last : link (links calls) call a b = some x := by
      rw [← show links (calls ++ [call]) = link (links calls) call from List.foldl_append ..]
      exact arc
    unfold link at last
    split_ifs at last with own
    · exact ⟨call, List.mem_append_right calls (List.mem_singleton_self call), own.1, own.2, (Option.some.inj last).symm⟩
    · obtain ⟨old, member, same⟩ := ih last
      exact ⟨old, List.mem_append_left [call] member, same⟩

theorem below_of_costs (calls : List Call) (c : ℚ) (nonneg : 0 ≤ c) (each : ∀ call ∈ calls, call.cost ≤ c)
    (few : (build calls).size • c < infinity) {a b : ℕ} {l : List ℕ} {x : ℚ} (walk : Walk (Arc (links calls)) a l b x)
    (distinct : (a :: l).Nodup) : x < infinity := by
  refine (walk.cost_le (Finset.range (build calls).size) nonneg
    (fun a b x arc => Finset.mem_range.mpr ((build_built calls).inside a b x arc).2) (fun a b x arc => ?_)
    (List.nodup_cons.mp distinct).2).trans_lt ?_
  · obtain ⟨call, member, _, _, rfl⟩ := links_call arc
    exact each call member
  · rwa [Finset.card_range]

/-- The direct link from 1 to 3 costs more than the way by 2, and nothing leads back from 3. -/
def sample : List Call := [.insert 1 2 1, .insert 2 1 1, .insert 1 3 5, .insert 2 3 (3 / 2), .insert 3 4 1]

end Calls

end Ns2.RouteLogic
