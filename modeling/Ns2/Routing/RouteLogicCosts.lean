import Ns2.Library.Loops
import Ns2.Routing.RouteLogic

namespace Ns2.RouteLogic

def Call.src : Call → ℕ
  | .insert src _ _ => src
  | .insertEntry src _ _ _ => src

def Call.dst : Call → ℕ
  | .insert _ dst _ => dst
  | .insertEntry _ dst _ _ => dst

def Call.cost : Call → ℚ
  | .insert _ _ cost => cost
  | .insertEntry _ _ cost _ => cost

/-- The links inserted, each with the cost that it was given last. -/
def link (known : ℕ → ℕ → Option ℚ) (call : Call) (i j : ℕ) : Option ℚ :=
  if i = call.src ∧ j = call.dst then some call.cost else known i j

def links (calls : List Call) : ℕ → ℕ → Option ℚ := calls.foldl link fun _ _ => none

/-- The matrix holds the costs of the links, and `infinity` elsewhere. -/
structure Built (s : RouteLogic) (known : ℕ → ℕ → Option ℚ) : Prop where
  cost : ∀ i j, i < s.size → j < s.size → s.ADJ i j = (known i j).getD infinity
  inside : ∀ i j c, known i j = some c → i < s.size ∧ j < s.size

section Costs

variable {s : RouteLogic} {known : ℕ → ℕ → Option ℚ} {i j i' j' n m N : ℕ}

theorem index_inj (bound : j < N) (bound' : j' < N) (same : index i j N = index i' j' N) : i = i' ∧ j = j' := by
  unfold index at same
  have rows : i = i' := by
    have divided := congrArg (· / N) same
    simpa [Nat.mul_add_div (Nat.zero_lt_of_lt bound), Nat.div_eq_of_lt bound, Nat.div_eq_of_lt bound'] using divided
  subst rows
  exact ⟨rfl, Nat.add_left_cancel same⟩

theorem index_row (other : j ≠ j') : index i j N ≠ index i j' N := fun same => other (Nat.add_left_cancel same)

theorem double_spec (n rounds m : ℕ) (positive : 0 < m) :
    m ≤ double n rounds m ∧ (n < double n rounds m ∨ m + rounds ≤ double n rounds m) := by
  induction rounds generalizing m with
  | zero => exact ⟨le_rfl, Or.inr le_rfl⟩
  | succ rounds ih =>
    unfold double
    split_ifs with below
    · obtain ⟨low, high⟩ := ih (m * 2) (by omega)
      exact ⟨by omega, high.imp_right fun more => by omega⟩
    · exact ⟨le_rfl, Or.inl (by omega)⟩

variable {old adj : ℕ → AdjEntry} {osize : ℕ}

theorem copyRow_other (fits : osize ≤ m) (inside : j < m) (other : i ≠ i') :
    (copyRow old osize m adj i' (index i j m)).cost = (adj (index i j m)).cost := by
  refine Sweep.foldl_kept (P := fun t : ℕ → AdjEntry => (t (index i j m)).cost = (adj (index i j m)).cost) (fun t u member same => ?_) rfl
  have apart : index i j m ≠ index i' u m := fun equal =>
    other (index_inj inside ((List.mem_range.mp member).trans_le fits) equal).1
  exact (congrArg AdjEntry.cost (Function.update_of_ne apart _ _)).trans same

theorem copyRow_own : (copyRow old osize m adj i (index i j m)).cost =
    if j < osize then (old (index i j osize)).cost else (adj (index i j m)).cost := by
  let get (adj : ℕ → AdjEntry) (j : ℕ) : ℚ := (adj (index i j m)).cost
  have own : ∀ adj, ∀ v ∈ List.range osize, j ≠ v → get (copyCell old osize m i adj v) j = get adj j := fun adj v _ other =>
    congrArg AdjEntry.cost (Function.update_of_ne (index_row other) _ _)
  split_ifs with inside
  · obtain ⟨mid, last, _⟩ := Sweep.foldl_own (s := adj) (P := fun _ => True) get own (fun _ _ _ _ => trivial) List.nodup_range
      (List.mem_range.mpr inside) trivial
    refine last.trans ?_
    change (copyCell old osize m i mid j (index i j m)).cost = _
    rw [copyCell, Function.update_self]
  · exact Sweep.foldl_other get own (by simpa using inside)

theorem copy_cost (fits : osize ≤ m) (inside : j < m) : (copy old osize m adj (index i j m)).cost =
    if i < osize ∧ j < osize then (old (index i j osize)).cost else (adj (index i j m)).cost := by
  let get (adj : ℕ → AdjEntry) (i : ℕ) : ℚ := (adj (index i j m)).cost
  have own : ∀ adj, ∀ v ∈ List.range osize, i ≠ v → get (copyRow old osize m adj v) i = get adj i := fun adj v _ other =>
    copyRow_other fits inside other
  by_cases rows : i < osize
  · obtain ⟨mid, last, same, _⟩ := Sweep.foldl_own (s := adj) (P := fun _ => True) get own (fun _ _ _ _ => trivial) List.nodup_range
      (List.mem_range.mpr rows) trivial
    refine last.trans (copyRow_own.trans ?_)
    simp only [rows, true_and]
    split_ifs
    · rfl
    · exact same
  · rw [if_neg fun both => rows both.1]
    exact Sweep.foldl_other get own (by simpa using rows)

/-- The array grows until it has the node, and keeps its costs. -/
theorem Built.check (built : Built s known) (n : ℕ) : Built (s.check n) known ∧ n < (s.check n).size ∧ s.size ≤ (s.check n).size := by
  by_cases within : n < s.size
  · rw [RouteLogic.check, if_pos within]
    exact ⟨built, within, le_rfl⟩
  · let start := if s.size = 0 then 16 else s.size
    let m := double n (n + 1) start
    have old : 0 < start ∧ s.size ≤ start := by
      unfold start
      split_ifs <;> omega
    obtain ⟨low, high⟩ := double_spec n (n + 1) start old.1
    have fits : s.size ≤ m := old.2.trans low
    have grown : s.check n = { s with size := m, adj := copy s.adj s.size m fun _ => ⟨infinity, 0⟩ } := if_neg within
    rw [grown]
    refine ⟨⟨fun i j _ right => ?_, fun i j c same => ?_⟩, show n < m by omega, fits⟩
    · refine (copy_cost fits right).trans ?_
      split_ifs with both
      · exact built.cost i j both.1 both.2
      · cases same : known i j with
        | none => rfl
        | some c => exact absurd (built.inside i j c same) both
    · have both := built.inside i j c same
      exact ⟨both.1.trans_le fits, both.2.trans_le fits⟩

theorem Built.step (built : Built s known) (call : Call) : Built (s.step call) (link known call) := by
  obtain ⟨first, src, _⟩ := built.check call.src
  obtain ⟨second, dst, more⟩ := first.check call.dst
  let t := (s.check call.src).check call.dst
  have written : (s.step call).size = t.size ∧ ∃ entry, (s.step call).adj =
      Function.update t.adj (index call.src call.dst t.size) ⟨call.cost, entry⟩ := by
    cases call <;> exact ⟨rfl, _, rfl⟩
  obtain ⟨size, entry, adj⟩ := written
  refine ⟨fun i j left right => ?_, fun i j c same => ?_⟩
  · rw [size] at left right
    rw [ADJ, size, adj, link]
    split_ifs with own
    · rw [own.1, own.2, Function.update_self]
      rfl
    · have apart : index i j t.size ≠ index call.src call.dst t.size := fun equal => own (index_inj right dst equal)
      rw [Function.update_of_ne apart]
      exact second.cost i j left right
  · rw [size]
    unfold link at same
    split_ifs at same with own
    · rw [own.1, own.2]
      exact ⟨src.trans_le more, dst⟩
    · exact second.inside i j c same

theorem build_built (calls : List Call) : Built (build calls) (links calls) := by
  have kept : ∀ {s known}, Built s known → Built (calls.foldl RouteLogic.step s) (calls.foldl link known) := by
    induction calls with
    | nil => exact id
    | cons call calls ih => exact fun built => ih (built.step call)
  exact kept ⟨fun i j left => absurd left (Nat.not_lt_zero i), nofun⟩

end Costs

end Ns2.RouteLogic
