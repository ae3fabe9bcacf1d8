import Ns2.Tcp.ReassemblyRun

namespace Ns2.ReassemblyQueue

open Intervals (Absorbs Touches cover)

/-- Segments are added from `rcv_nxt_` on, and what lies below it is cleared. -/
def InSequence (s : ReassemblyQueue) : Op → Prop
  | .add g => g.start < g.fin ∧ s.rcvNxt ≤ g.start
  | .clearto seq => seq = s.rcvNxt
  | .clear => False

instance InSequence.decidable (s : ReassemblyQueue) : ∀ op, Decidable (InSequence s op)
  | .add _ => inferInstanceAs (Decidable (_ ∧ _))
  | .clearto seq => inferInstanceAs (Decidable (seq = s.rcvNxt))
  | .clear => isFalse id

def Op.segment : Op → Option Segment
  | .add g => some g
  | _ => none

/-- The segments that the operations add. -/
def segments (ops : List Op) : List Segment := ops.filterMap Op.segment

def Segment.Holds (g : Segment) (n : ℤ) : Prop := g.start ≤ n ∧ n < g.fin

/-- `rcv_nxt_` is at the end of what has come in without a hole: a block ends there or starts above it,
and from there on the blocks cover what has been added. -/
structure Caught (added : List Segment) (s : ReassemblyQueue) : Prop where
  valid : s.Valid
  placed : ∀ b ∈ s.fifo, b.endseq = s.rcvNxt ∨ s.rcvNxt < b.startseq
  known : ∀ n, s.rcvNxt ≤ n → ((∃ h ∈ added, h.Holds n) ↔ n ∈ cover SegInfo.startseq SegInfo.endseq s.fifo)

section Steps

variable {s next : ReassemblyQueue} {g : Segment} {m : SegInfo} {added : List Segment}

theorem Caught.uncovered (caught : Caught added s) : ¬∃ h ∈ added, h.Holds s.rcvNxt := by
  rw [caught.known s.rcvNxt le_rfl]
  rintro ⟨b, member, low, high⟩
  rcases caught.placed b member with ends | above
  · omega
  · omega

/-- The merged block starts above `rcv_nxt_` if the segment does. -/
theorem Caught.merged_above (caught : Caught added s) (merged : Merged s g.start g.fin g.tiflags next m)
    (beyond : s.rcvNxt < g.start) : s.rcvNxt < m.startseq := by
  rcases merged.absorbs.leftmost with same | ⟨b, member, touches, same⟩
  · rwa [same]
  · have reaches := touches.1
    rcases caught.placed b member with ends | above
    · omega
    · rwa [← same]

/-- Whichever exit `add` takes and whichever block it looks at there, `rcv_nxt_` moves exactly when the segment
starts at it, and then to the end of the merged block. -/
theorem Caught.rcvNxt_eq (caught : Caught added s) (nonempty : g.start < g.fin) (ahead : s.rcvNxt ≤ g.start)
    (merged : Merged s g.start g.fin g.tiflags next m) :
    next.rcvNxt = if g.start = s.rcvNxt then m.endseq else s.rcvNxt := by
  have left := merged.absorbs.left
  rcases merged.nxt with ⟨⟨b, member, start, fin⟩, same⟩ | ⟨_, ⟨ends, h, first, moved⟩ | ⟨_, moved⟩⟩
  · -- The segment is a block already, which is not the one that ends at `rcv_nxt_`.
    have beyond := caught.placed b member
    rw [if_neg (by omega), same]
  · rw [moved, reached]
    by_cases here : g.start = s.rcvNxt
    · obtain ⟨x, member, ⟨startX, _, _⟩, _, shape⟩ := ends
      have above := (caught.placed x member).resolve_left (by omega)
      obtain ⟨_, all⟩ := (shape.resolve_left (by omega)).resolve_left (by omega)
      have none : (s.fifo.filter fun b => b.endseq < g.start) = [] :=
        List.filter_eq_nil_iff.mpr fun y inside => by simpa using (all y inside).le
      have head : some m = some h := by
        rw [← first, merged.absorbs.result, none]
        rfl
      cases Option.some.inj head
      rw [if_pos (by omega), if_pos here]
    · have above := caught.merged_above merged (by omega)
      have member : h ∈ next.fifo := List.mem_of_mem_head? first
      rw [if_neg here]
      rcases merged.absorbs.mem.mp member with ⟨inside, _⟩ | rfl | ⟨inside, _⟩
      · rcases caught.placed h inside with ends | later
        · split_ifs <;> omega
        · rw [if_neg (by omega)]
      · rw [if_neg (by omega)]
      · rcases caught.placed h inside with ends | later
        · split_ifs <;> omega
        · rw [if_neg (by omega)]
  · rw [moved, reached]
    by_cases here : g.start = s.rcvNxt
    · rw [if_pos (by omega), if_pos here]
    · have above := caught.merged_above merged (by omega)
      rw [if_neg (by omega), if_neg here]

theorem holds_append {n : ℤ} : (∃ h ∈ added ++ [g], h.Holds n) ↔ (∃ h ∈ added, h.Holds n) ∨ g.Holds n := by
  simp only [List.mem_append, List.mem_singleton, or_and_right, exists_or, exists_eq_left]

theorem Caught.covered (caught : Caught added s) (merged : Merged s g.start g.fin g.tiflags next m) {n : ℤ} (above : s.rcvNxt ≤ n) :
    (∃ h ∈ added ++ [g], h.Holds n) ↔ n ∈ cover SegInfo.startseq SegInfo.endseq next.fifo := by
  rw [holds_append, caught.known n above, merged.absorbs.cover]
  rfl

/-- After the addition `rcv_nxt_` is at the first number from its old value on that has not come in. -/
theorem Caught.add (caught : Caught added s) (nonempty : g.start < g.fin) (ahead : s.rcvNxt ≤ g.start)
    (merged : Merged s g.start g.fin g.tiflags next m) :
    Caught (added ++ [g]) next ∧ IsLeast {n | s.rcvNxt ≤ n ∧ ¬∃ h ∈ added ++ [g], h.Holds n} next.rcvNxt := by
  have moved := caught.rcvNxt_eq nonempty ahead merged
  have left := merged.absorbs.left
  have right := merged.absorbs.right
  have onward : s.rcvNxt ≤ next.rcvNxt := by
    rw [moved]
    split_ifs <;> omega
  have placed : ∀ b ∈ next.fifo, b.endseq = next.rcvNxt ∨ next.rcvNxt < b.startseq := by
    intro b member
    by_cases here : g.start = s.rcvNxt
    · rw [moved, if_pos here]
      rcases merged.absorbs.mem.mp member with ⟨inside, before⟩ | rfl | ⟨inside, after⟩
      · have proper := caught.valid.separated.nonempty b inside
        have low := caught.placed b inside
        omega
      · exact Or.inl rfl
      · exact Or.inr (merged.absorbs.above caught.valid.separated inside after)
    · rw [moved, if_neg here]
      rcases merged.absorbs.mem.mp member with ⟨inside, _⟩ | rfl | ⟨inside, _⟩
      · exact caught.placed b inside
      · exact Or.inr (caught.merged_above merged (by omega))
      · exact caught.placed b inside
  have known : ∀ n, next.rcvNxt ≤ n → ((∃ h ∈ added ++ [g], h.Holds n) ↔ n ∈ cover SegInfo.startseq SegInfo.endseq next.fifo) :=
    fun n above => caught.covered merged (onward.trans above)
  have after : Caught (added ++ [g]) next := ⟨merged.valid, placed, known⟩
  refine ⟨after, ⟨onward, after.uncovered⟩, fun n free => ?_⟩
  by_contra below
  obtain ⟨above, outside⟩ := free
  rw [moved] at below
  split_ifs at below with here
  · refine outside ((caught.covered merged above).mpr ⟨m, ?_, by omega, by omega⟩)
    exact merged.absorbs.mem.mpr (Or.inr (Or.inl rfl))
  · omega

theorem Caught.clearto (caught : Caught added s) : Caught added (s.clearto s.rcvNxt).1 where
  valid := caught.valid.clearto_valid s.rcvNxt
  placed b member := by
    rw [(caught.valid.cleared s.rcvNxt).fifo, trimmed] at member
    obtain ⟨c, kept, rfl⟩ := List.mem_map.mp member
    obtain ⟨inside, reaches⟩ := List.mem_filter.mp kept
    have beyond : s.rcvNxt < c.endseq := of_decide_eq_true reaches
    have above := (caught.placed c inside).resolve_left (by omega)
    rw [(caught.valid.cleared s.rcvNxt).rcvNxt]
    exact Or.inr (lt_max_of_lt_right above)
  known n above := by
    rw [(caught.valid.cleared s.rcvNxt).rcvNxt] at above
    rw [(caught.valid.cleared s.rcvNxt).fifo, trimmed_cover, caught.known n above]
    exact (and_iff_left (not_lt.mpr above)).symm

theorem segments_append (ops more : List Op) : segments (ops ++ more) = segments ops ++ segments more := List.filterMap_append

/-- A step of a run in sequence, `seen` being the operations before it. -/
theorem Caught.step {seen : List Op} {op : Op} (caught : Caught (segments seen) s) (inSequence : InSequence s op) :
    ∃ next flags, machine.step s op = some (next, flags) ∧ Caught (segments (seen ++ [op])) next ∧
      ((∃ g, op = .add g) → IsLeast {n | s.rcvNxt ≤ n ∧ ¬∃ h ∈ segments (seen ++ [op]), h.Holds n} next.rcvNxt) := by
  rw [segments_append]
  cases op with
  | add g =>
    obtain ⟨next, flags, m, taken, merged⟩ := caught.valid.add_merged inSequence.1 g.tiflags g.rqflags
    obtain ⟨after, least⟩ := caught.add inSequence.1 inSequence.2 merged
    exact ⟨next, flags, taken, after, fun _ => least⟩
  | clearto seq =>
    cases inSequence
    refine ⟨_, _, rfl, ?_, ?_⟩
    · rw [show segments [Op.clearto s.rcvNxt] = [] from rfl, List.append_nil]
      exact caught.clearto
    · rintro ⟨g, ⟨⟩⟩
  | clear => exact absurd inSequence id

end Steps

/-- In a run in sequence every addition takes `rcv_nxt_` to the least number from its old value on that no
segment added so far covers. -/
theorem rcvNxt_least (rcvnxt : ℤ) (ops : List Op) (g : Segment)
    (along : machine.Along InSequence (make rcvnxt) (ops ++ [.add g])) :
    ∃ s outs next flags, machine.run (make rcvnxt) ops = some (s, outs) ∧ machine.step s (.add g) = some (next, flags) ∧
      IsLeast {n | s.rcvNxt ≤ n ∧ ¬∃ h ∈ segments (ops ++ [.add g]), h.Holds n} next.rcvNxt := by
  have start : Caught (segments []) (make rcvnxt) :=
    ⟨make_valid rcvnxt, fun _ member => absurd member List.not_mem_nil, fun n _ => by simp [segments, cover, make]⟩
  have kept : ∀ s seen op, Caught (segments seen) s → InSequence s op →
      ∃ next flags, machine.step s op = some (next, flags) ∧ Caught (segments (seen ++ [op])) next := by
    intro s seen op caught inSequence
    obtain ⟨next, flags, taken, after, _⟩ := caught.step inSequence
    exact ⟨next, flags, taken, after⟩
  obtain ⟨s, outs, run, caught⟩ := Machine.run_inputs kept start along.left
  obtain ⟨next, flags, taken, _, least⟩ := caught.step (along.right run).head
  exact ⟨s, outs, next, flags, run, taken, least ⟨g, rfl⟩⟩

theorem rcvNxt_least_sample : ∃ s outs next flags,
    machine.run (make 1) [.add ⟨5, 7, 0, 0⟩, .add ⟨3, 4, 0, 0⟩, .add ⟨1, 3, 0, 0⟩, .clearto 4] = some (s, outs) ∧
      machine.step s (.add ⟨4, 6, 0, 0⟩) = some (next, flags) ∧
      IsLeast {n | s.rcvNxt ≤ n ∧ ¬∃ h ∈ segments ([.add ⟨5, 7, 0, 0⟩, .add ⟨3, 4, 0, 0⟩, .add ⟨1, 3, 0, 0⟩, .clearto 4] ++
        [.add ⟨4, 6, 0, 0⟩]), h.Holds n} next.rcvNxt :=
  rcvNxt_least 1 _ ⟨4, 6, 0, 0⟩ (by decide +kernel)

end Ns2.ReassemblyQueue
