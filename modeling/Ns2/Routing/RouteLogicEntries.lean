import Ns2.Library.Machine
import Ns2.Routing.RouteLogicCosts

namespace Ns2.RouteLogic

inductive MatrixCall
  | link (call : Call)
  | reset (src dst : ℕ)
deriving DecidableEq

/-- `none` is a failed assertion. -/
def reset (s : RouteLogic) (src dst : ℕ) : Option RouteLogic :=
  if src < s.size ∧ dst < s.size then
    some { s with adj := Function.update s.adj (index src dst s.size) { s.adj (index src dst s.size) with cost := infinity } }
  else none

def ADJ_ENTRY (s : RouteLogic) (i j : ℕ) : ℕ := (s.adj (index i j s.size)).entry

/-- Nothing is said of an array whose length overflows an `int` in `alloc`. -/
def matrix : Machine RouteLogic MatrixCall Unit where
  step s
    | .link call => if (s.step call).size * (s.step call).size < 2 ^ 31 then some (s.step call, ()) else none
    | .reset src dst => (s.reset src dst).map (·, ())

/-- The costs given last. A pair that was reset is as one that has none. -/
def recordCost (known : ℕ → ℕ → Option ℚ) : MatrixCall → ℕ → ℕ → Option ℚ
  | .link call => RouteLogic.link known call
  | .reset src dst => fun i j => if i = src ∧ j = dst then none else known i j

/-- The entries given last. -/
def recordEntry (entries : ℕ → ℕ → ℕ) : MatrixCall → ℕ → ℕ → ℕ
  | .link (.insertEntry src dst _ entry) => fun i j => if i = src ∧ j = dst then entry else entries i j
  | .link (.insert _ _ _) => entries
  | .reset _ _ => entries

def costs (calls : List MatrixCall) : ℕ → ℕ → Option ℚ := calls.foldl recordCost fun _ _ => none

def entries (calls : List MatrixCall) : ℕ → ℕ → ℕ := calls.foldl recordEntry fun _ _ => 0

/-- The matrix holds the entries, in an array of a power of two times as many. -/
structure Entered (s : RouteLogic) (entries : ℕ → ℕ → ℕ) : Prop where
  entry : ∀ i j, i < s.size → j < s.size → s.ADJ_ENTRY i j = entries i j
  inside : ∀ i j, entries i j ≠ 0 → i < s.size ∧ j < s.size
  size : s.size = 0 ∨ ∃ k ≤ 15, s.size = 2 ^ k

/-- The matrix does not grow when it has an entry. The assertions of `reset` hold. -/
def KeepsEntries (s : RouteLogic) : MatrixCall → Prop
  | .link call => call.src < 2 ^ 15 ∧ call.dst < 2 ^ 15 ∧
      (s.size ≤ call.src ∨ s.size ≤ call.dst → ∀ i < s.size, ∀ j < s.size, s.ADJ_ENTRY i j = 0)
  | .reset src dst => src < s.size ∧ dst < s.size

instance KeepsEntries.decidable (s : RouteLogic) : ∀ call, Decidable (s.KeepsEntries call)
  | .link _ => inferInstanceAs (Decidable (_ ∧ _ ∧ (_ → _)))
  | .reset _ _ => inferInstanceAs (Decidable (_ ∧ _))

section Entries

variable {s : RouteLogic} {known : ℕ → ℕ → Option ℚ} {entered : ℕ → ℕ → ℕ} {n : ℕ}

theorem copy_entry (old adj : ℕ → AdjEntry) (osize m x : ℕ) : (copy old osize m adj x).entry = (adj x).entry := by
  have cell : ∀ t : ℕ → AdjEntry, ∀ i j, (copyCell old osize m i t j x).entry = (t x).entry := fun t i j => by
    rw [copyCell]
    by_cases here : x = index i j m
    · rw [here, Function.update_self]
    · rw [Function.update_of_ne here]
  have row : ∀ t : ℕ → AdjEntry, ∀ i, (copyRow old osize m t i x).entry = (t x).entry := fun t i =>
    Sweep.foldl_kept (P := fun u : ℕ → AdjEntry => (u x).entry = (t x).entry) (fun u j _ same => (cell u i j).trans same) rfl
  exact Sweep.foldl_kept (P := fun u : ℕ → AdjEntry => (u x).entry = (adj x).entry) (fun u i _ same => (row u i).trans same) rfl

theorem double_pow (small : n < 2 ^ 15) (rounds : ℕ) {a : ℕ} (bound : a ≤ 15) : ∃ b ≤ 15, double n rounds (2 ^ a) = 2 ^ b := by
  induction rounds generalizing a with
  | zero => exact ⟨a, bound, rfl⟩
  | succ rounds ih =>
    unfold double
    split_ifs with below
    · have lower : a < 15 := (Nat.pow_lt_pow_iff_right (by decide)).mp (below.trans_lt small)
      rw [← pow_succ]
      exact ih lower
    · exact ⟨a, bound, rfl⟩

/-- The new array has no entries, so there may have been none. -/
theorem Entered.check (holds : Entered s entered) (small : n < 2 ^ 15) (blank : s.size ≤ n → ∀ i j, entered i j = 0) :
    Entered (s.check n) entered := by
  by_cases within : n < s.size
  · rw [RouteLogic.check, if_pos within]
    exact holds
  · have none := blank (by omega)
    have power : ∃ a ≤ 15, (if s.size = 0 then 16 else s.size) = 2 ^ a := by
      split_ifs with empty
      · exact ⟨4, by decide, rfl⟩
      · exact holds.size.resolve_left empty
    obtain ⟨a, bound, start⟩ := power
    obtain ⟨b, limit, size⟩ := double_pow small (n + 1) bound
    have grown : s.check n = { s with size := 2 ^ b, adj := copy s.adj s.size (2 ^ b) fun _ => ⟨infinity, 0⟩ } := by
      rw [RouteLogic.check, if_neg within]
      simp only [start, size]
      rfl
    rw [grown]
    refine ⟨fun i j _ _ => ?_, fun i j some => absurd (none i j) some, Or.inr ⟨b, limit, rfl⟩⟩
    rw [none i j, ADJ_ENTRY, copy_entry]

/-- A cost is set without the entry. -/
theorem Entered.setCost (holds : Entered s entered) (x : ℕ) (cost : ℚ) :
    Entered { s with adj := Function.update s.adj x { s.adj x with cost := cost } } entered := by
  refine ⟨fun i j left right => ?_, holds.inside, holds.size⟩
  refine Eq.trans ?_ (holds.entry i j left right)
  simp only [ADJ_ENTRY]
  by_cases own : index i j s.size = x
  · rw [own, Function.update_self]
  · rw [Function.update_of_ne own]

theorem Entered.setEntry (holds : Entered s entered) {src dst : ℕ} (inside : src < s.size ∧ dst < s.size) (cost : ℚ) (entry : ℕ) :
    Entered { s with adj := Function.update s.adj (index src dst s.size) ⟨cost, entry⟩ }
      fun i j => if i = src ∧ j = dst then entry else entered i j := by
  refine ⟨fun i j left right => ?_, fun i j some => ?_, holds.size⟩
  · simp only [ADJ_ENTRY]
    split_ifs with own
    · rw [own.1, own.2, Function.update_self]
    · have apart : index i j s.size ≠ index src dst s.size := fun equal => own (index_inj right inside.2 equal)
      rw [Function.update_of_ne apart]
      exact holds.entry i j left right
  · split_ifs at some with own
    · rw [own.1, own.2]
      exact inside
    · exact holds.inside i j some

/-- Of the growth of a call, the entries notice nothing. -/
theorem Entered.grow (holds : Entered s entered) (built : Built s known) (call : Call) (kept : s.KeepsEntries (.link call)) :
    Entered ((s.check call.src).check call.dst) entered := by
  obtain ⟨src, dst, blank⟩ := kept
  have empty : s.size ≤ call.src ∨ s.size ≤ call.dst → ∀ i j, entered i j = 0 := fun grows i j => by
    by_contra some
    obtain ⟨left, right⟩ := holds.inside i j some
    exact some ((holds.entry i j left right).symm.trans (blank grows i left j right))
  have first := holds.check src fun grows => empty (Or.inl grows)
  exact first.check dst fun grows => empty (Or.inr ((built.check call.src).2.2.trans grows))

theorem Entered.step (holds : Entered s entered) (built : Built s known) (call : Call) (kept : s.KeepsEntries (.link call)) :
    Entered (s.step call) (recordEntry entered (.link call)) := by
  have grown := holds.grow built call kept
  obtain ⟨first, src, _⟩ := built.check call.src
  obtain ⟨_, dst, more⟩ := first.check call.dst
  cases call with
  | insert a b cost => exact grown.setCost _ cost
  | insertEntry a b cost entry => exact grown.setEntry ⟨src.trans_le more, dst⟩ cost entry

theorem Built.reset (built : Built s known) {src dst : ℕ} (inside : src < s.size ∧ dst < s.size) :
    Built { s with adj := Function.update s.adj (index src dst s.size) { s.adj (index src dst s.size) with cost := infinity } }
      (recordCost known (.reset src dst)) := by
  refine ⟨fun i j left right => ?_, fun i j c same => ?_⟩
  · simp only [ADJ, recordCost]
    split_ifs with own
    · rw [own.1, own.2, Function.update_self]
      rfl
    · have apart : index i j s.size ≠ index src dst s.size := fun equal => own (index_inj right inside.2 equal)
      rw [Function.update_of_ne apart]
      exact built.cost i j left right
  · simp only [recordCost] at same
    split_ifs at same with own
    exact built.inside i j c same

/-- The length of the array is an `int`. -/
theorem Entered.fits (holds : Entered s entered) : s.size * s.size < 2 ^ 31 := by
  rcases holds.size with empty | ⟨k, bound, size⟩
  · rw [empty]
    decide
  · have limit : s.size ≤ 2 ^ 15 := size ▸ Nat.pow_le_pow_right (by decide) bound
    exact (Nat.mul_le_mul limit limit).trans_lt (by decide)

theorem matrix_step (built : Built s known) (holds : Entered s entered) {call : MatrixCall} (kept : s.KeepsEntries call) :
    ∃ t out, matrix.step s call = some (t, out) ∧ Built t (recordCost known call) ∧ Entered t (recordEntry entered call) := by
  cases call with
  | link call =>
    have after := holds.step built call kept
    exact ⟨s.step call, (), if_pos after.fits, built.step call, after⟩
  | reset src dst =>
    refine ⟨_, (), ?_, built.reset kept, holds.setCost (index src dst s.size) infinity⟩
    simp only [matrix, RouteLogic.reset, if_pos (show src < s.size ∧ dst < s.size from kept)]
    rfl

theorem matrix_run (built : Built s known) (holds : Entered s entered) {calls : List MatrixCall}
    (kept : matrix.Along KeepsEntries s calls) : ∃ t outs, matrix.run s calls = some (t, outs) ∧
      Built t (calls.foldl recordCost known) ∧ Entered t (calls.foldl recordEntry entered) := by
  induction calls generalizing s known entered with
  | nil => exact ⟨s, [], rfl, built, holds⟩
  | cons call calls ih =>
    obtain ⟨next, out, taken, built', holds'⟩ := matrix_step built holds kept.head
    obtain ⟨t, outs, run, after⟩ := ih built' holds' (kept.tail taken)
    exact ⟨t, out :: outs, by rw [Machine.run_cons taken, run]; rfl, after⟩

theorem make_entered : Entered make fun _ _ => 0 where
  entry i _ left := absurd left (Nat.not_lt_zero i)
  inside _ _ some := absurd rfl some
  size := Or.inl rfl

/-- In every run of such calls, no call fails and the matrix holds what was given last. -/
theorem matrix_holds (calls : List MatrixCall) (kept : matrix.Along KeepsEntries make calls) : ∃ s outs,
    matrix.run make calls = some (s, outs) ∧
      (∀ i j, i < s.size → j < s.size → s.ADJ i j = (costs calls i j).getD infinity ∧ s.ADJ_ENTRY i j = entries calls i j) ∧
      ∀ i j, s.size ≤ i ∨ s.size ≤ j → costs calls i j = none ∧ entries calls i j = 0 := by
  obtain ⟨s, outs, run, built, holds⟩ := matrix_run (build_built []) make_entered kept
  refine ⟨s, outs, run, fun i j left right => ⟨built.cost i j left right, holds.entry i j left right⟩, fun i j outside => ⟨?_, ?_⟩⟩
  · by_contra some
    obtain ⟨c, same⟩ := Option.ne_none_iff_exists'.mp some
    have inside := built.inside i j c same
    omega
  · by_contra some
    have inside := holds.inside i j some
    omega

/-- A link that gets an entry, then another cost, and is reset. -/
def keptCalls : List MatrixCall := [.link (.insertEntry 3 2 1 7), .link (.insert 3 2 5), .reset 3 2]

theorem matrix_holds_sample : ∃ s outs, matrix.run make keptCalls = some (s, outs) ∧ s.ADJ 3 2 = infinity ∧ s.ADJ_ENTRY 3 2 = 7 := by
  obtain ⟨s, outs, run, inside, outside⟩ := matrix_holds keptCalls (by decide)
  have within : 3 < s.size ∧ 2 < s.size := by
    by_contra beyond
    have none := (outside 3 2 (by omega)).2
    exact absurd none (by decide)
  exact ⟨s, outs, run, inside 3 2 within.1 within.2⟩

/-- The second link makes the matrix grow. -/
def lostCalls : List MatrixCall := [.link (.insertEntry 1 2 1 7), .link (.insert 1 16 1)]

theorem entry_lost : ∃ s outs, matrix.run make lostCalls = some (s, outs) ∧ 1 < s.size ∧ 2 < s.size ∧
    entries lostCalls 1 2 = 7 ∧ s.ADJ_ENTRY 1 2 = 0 :=
  ⟨_, _, rfl, by decide, by decide, by decide, by decide +kernel⟩

end Entries

end Ns2.RouteLogic
