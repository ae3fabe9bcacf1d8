import Ns2.Tcp.ReassemblySpaced

namespace Ns2.ReassemblyQueue

open Intervals (cover size spaced_middle)

abbrev covered (l : List SegInfo) : Set ℤ := cover SegInfo.startseq SegInfo.endseq l

/-- What `nexthole` answers when some block ends at `seq` or above. -/
structure NextHole (seq : ℤ) (l : List SegInfo) (answer : ℤ × ℤ × ℤ) : Prop where
  least : IsLeast {n | seq ≤ n ∧ n ∉ covered l} answer.1
  counted : (∃ b ∈ l, answer.1 < b.startseq) →
    answer.2 = (((l.filter fun b => answer.1 < b.startseq).length : ℤ), ({n ∈ covered l | answer.1 < n}.ncard : ℤ))
  none : (¬∃ b ∈ l, answer.1 < b.startseq) → answer.2 = (-1, -1)

section Scan

variable {seq hole : ℤ} {l low high : List SegInfo} {p : SegInfo}

theorem cnts_eq (nodes : List SegInfo) : cnts nodes = ((nodes.length : ℤ), size SegInfo.startseq SegInfo.endseq nodes) := by
  have folded : ∀ (nodes : List SegInfo) (a b : ℤ), nodes.foldl (fun acc p => (acc.1 + 1, acc.2 + (p.endseq - p.startseq))) (a, b) =
      (a + nodes.length, b + size SegInfo.startseq SegInfo.endseq nodes) := by
    intro nodes
    induction nodes with
    | nil => intro a b; simp [size]
    | cons p nodes ih =>
      intro a b
      rw [List.foldl_cons, ih, List.length_cons, Intervals.size_cons, Prod.mk.injEq]
      refine ⟨?_, add_assoc _ _ _⟩
      push_cast
      omega
  have whole := folded nodes 0 0
  rwa [zero_add, zero_add] at whole

/-- A number between the blocks `low` and `high` is not covered, and `high` is what lies above it. -/
theorem between_uncovered (below : ∀ b ∈ low, b.endseq ≤ hole) (above : ∀ b ∈ high, hole < b.startseq) : hole ∉ covered (low ++ high) := by
  rintro ⟨b, member, start, fin⟩
  rcases List.mem_append.mp member with early | late
  · have under := below b early
    omega
  · have beyond' := above b late
    omega

theorem between_filter (proper : ∀ b ∈ low, b.startseq ≤ b.endseq) (below : ∀ b ∈ low, b.endseq ≤ hole)
    (above : ∀ b ∈ high, hole < b.startseq) : (low ++ high).filter (fun b => hole < b.startseq) = high := by
  have none : low.filter (fun b => hole < b.startseq) = [] := List.filter_eq_nil_iff.mpr fun b member => by
    simpa using (proper b member).trans (below b member)
  have all : high.filter (fun b => hole < b.startseq) = high := List.filter_eq_self.mpr fun b member => by simpa using above b member
  rw [List.filter_append, none, all, List.nil_append]

theorem between_cover (below : ∀ b ∈ low, b.endseq ≤ hole) (above : ∀ b ∈ high, hole < b.startseq) :
    {n ∈ covered (low ++ high) | hole < n} = covered high := by
  ext n
  constructor
  · rintro ⟨⟨b, member, start, fin⟩, beyond⟩
    rcases List.mem_append.mp member with early | late
    · have under := below b early
      omega
    · exact ⟨b, late, start, fin⟩
  · rintro ⟨b, late, start, fin⟩
    exact ⟨⟨b, List.mem_append_right low late, start, fin⟩, (above b late).trans_le start⟩

/-- A hole between `low` and `high` that ends what is covered from `seq` on. -/
theorem NextHole.between (spaced : InOrder (low ++ high)) (below : ∀ b ∈ low, b.endseq ≤ hole) (above : ∀ b ∈ high, hole < b.startseq)
    (after : seq ≤ hole) (full : ∀ n, seq ≤ n → n < hole → n ∈ covered (low ++ high)) :
    NextHole seq (low ++ high) (hole, if high = [] then (-1, -1) else cnts high) where
  least := by
    refine ⟨⟨after, between_uncovered below above⟩, fun n free => ?_⟩
    by_contra early
    exact free.2 (full n free.1 (not_le.mp early))
  counted := by
    rintro ⟨b, member, beyond⟩
    have proper : ∀ b ∈ low, b.startseq ≤ b.endseq := fun b early => spaced.proper b (List.mem_append_left high early)
    have inHigh : b ∈ high := by
      rcases List.mem_append.mp member with early | late
      · have properB := proper b early
        have under := below b early
        omega
      · exact late
    have whole := Intervals.Spaced.size_eq (spaced.sublist (List.sublist_append_right low high))
    rw [if_neg (List.ne_nil_of_mem inHigh), cnts_eq, between_filter proper below above, between_cover below above, whole]
  none alone := by
    refine if_pos (List.eq_nil_iff_forall_not_mem.mpr fun b member => ?_)
    exact alone ⟨b, List.mem_append_right low member, above b member⟩

/-- The scan over the rest of the list, the blocks before it ending below `seq`. -/
theorem nextholeFrom_spec (spaced : InOrder (low ++ high)) (below : ∀ b ∈ low, b.endseq < seq) :
    ((∃ b ∈ high, seq ≤ b.endseq) → NextHole seq (low ++ high) (nextholeFrom seq high)) ∧
      ((¬∃ b ∈ high, seq ≤ b.endseq) → nextholeFrom seq high = (-1, -1, -1)) := by
  induction high generalizing low with
  | nil => exact ⟨fun found => by simp at found, fun _ => rfl⟩
  | cons p rest ih =>
    obtain ⟨_, _, proper, _, beyond⟩ := spaced_middle.mp spaced
    rw [nextholeFrom]
    by_cases before : p.startseq > seq
    · have above := Spaced.above_head (spaced.sublist (List.sublist_append_right low _)) before
      have hole := NextHole.between spaced (fun b member => (below b member).le) above le_rfl (fun n _ _ => by omega)
      rw [if_neg (List.cons_ne_nil p rest)] at hole
      rw [if_pos before]
      exact ⟨fun _ => hole, fun missing => absurd ⟨p, List.mem_cons_self, by omega⟩ missing⟩
    rw [if_neg before, List.append_cons]
    rw [List.append_cons] at spaced
    by_cases within : p.startseq ≤ seq ∧ p.endseq ≥ seq
    · have full : ∀ n, seq ≤ n → n < p.endseq → n ∈ covered (low ++ [p] ++ rest) := fun n after inside =>
        ⟨p, by simp, within.1.trans after, inside⟩
      have under := Spaced.under_last (spaced.sublist (List.sublist_append_left _ rest))
      rw [if_pos within]
      exact ⟨fun _ => NextHole.between spaced under beyond within.2 full, fun missing => absurd ⟨p, List.mem_cons_self, within.2⟩ missing⟩
    · have past : p.endseq < seq := by omega
      have onward := ih spaced (fun b member => (Spaced.below_last (spaced.sublist (List.sublist_append_left _ rest)) past) b member)
      rw [if_neg within, List.exists_mem_cons_iff, or_iff_right (not_le.mpr past)]
      exact onward

end Scan

/-- Three blocks, of which the second is a `FIN` without data. -/
def threeBlocks : ReassemblyQueue := ⟨[⟨0, 4, 7, 1, 0, 2⟩, ⟨1, 9, 9, 1, 0, 1⟩, ⟨3, 12, 15, 0, 0, 1⟩], [3, 1, 0], 6, 1, 4⟩

example : threeBlocks.nexthole 7 = (7, 2, 3) := by decide

end Ns2.ReassemblyQueue
