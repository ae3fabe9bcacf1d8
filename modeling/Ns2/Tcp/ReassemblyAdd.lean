import Ns2.Tcp.ReassemblyMerge

namespace Ns2.ReassemblyQueue

open Intervals (Separated Absorbs Touches size)

/-- The segment overlaps the block completely. -/
def Inside (start fin : ℤ) (b : SegInfo) : Prop := start ≤ b.startseq ∧ b.endseq ≤ fin

instance Inside.decidable (start fin : ℤ) (b : SegInfo) : Decidable (Inside start fin b) :=
  inferInstanceAs (Decidable (_ ∧ _))

section Sweep

variable {start fin : ℤ} {nodes rest : List SegInfo} {w : Sweep}

/-- Nodes that are not overlapped completely are passed over. -/
theorem sweep_append (outside : ∀ b ∈ nodes, ¬Inside start fin b) :
    sweep start fin (nodes ++ rest) w = sweep start fin rest { w with kept := w.kept ++ nodes } := by
  induction nodes generalizing w with
  | nil => simp
  | cons r nodes ih =>
    obtain ⟨first, later⟩ := List.forall_mem_cons.mp outside
    have notExact : ¬(start = r.startseq ∧ fin = r.endseq) := fun same => first ⟨same.1.le, same.2.ge⟩
    rw [List.cons_append, sweep, if_neg notExact, if_neg (show ¬(start ≤ r.startseq ∧ fin ≥ r.endseq) from first),
      ih later]
    simp

theorem sweep_outside (outside : ∀ b ∈ nodes, ¬Inside start fin b) :
    sweep start fin nodes w = ({ w with kept := w.kept ++ nodes }, none) := by
  have passed : sweep start fin (nodes ++ []) w = _ := sweep_append outside
  rwa [List.append_nil] at passed

/-- What the pass leaves when no node is overlapped exactly. -/
structure Swept (start fin : ℤ) (nodes after : List SegInfo) (w next : Sweep) : Prop where
  kept : next.kept = w.kept ++ nodes.filter fun b => ¬Inside start fin b
  lifo : w.lifo.Perm ((w.kept ++ nodes ++ after).map SegInfo.id) → next.lifo.Perm ((next.kept ++ after).map SegInfo.id)
  total : next.total = w.total -
    size SegInfo.startseq SegInfo.endseq (nodes.filter fun b => Inside start fin b)
  tiflags : ∀ i, next.tiflags.getLsbD i = true ↔
    w.tiflags.getLsbD i = true ∨ ∃ b ∈ nodes, Inside start fin b ∧ b.pflags.getLsbD i = true
  altered : next.altered = true ↔ w.altered = true ∨ ∃ b ∈ nodes, Inside start fin b

theorem sweep_swept (other : ∀ b ∈ nodes, ¬(start = b.startseq ∧ fin = b.endseq)) (after : List SegInfo) (w : Sweep) :
    ∃ next, sweep start fin nodes w = (next, none) ∧ Swept start fin nodes after w next := by
  induction nodes generalizing w with
  | nil => exact ⟨w, rfl, by simp, fun perm => by simpa using perm, by simp [size], by simp, by simp⟩
  | cons r nodes ih =>
    obtain ⟨first, later⟩ := List.forall_mem_cons.mp other
    rw [sweep, if_neg first]
    by_cases inside : Inside start fin r
    · rw [if_pos (show start ≤ r.startseq ∧ fin ≥ r.endseq from inside)]
      obtain ⟨next, ran, swept⟩ := ih later _
      refine ⟨next, ran, ?_, fun perm => swept.lifo ?_, ?_, fun i => ?_, ?_⟩
      · rw [swept.kept, List.filter_cons_of_neg (by simpa using inside)]
      · have moved : ((w.kept ++ r :: nodes ++ after).map SegInfo.id).Perm
            (r.id :: (w.kept ++ nodes ++ after).map SegInfo.id) := by
          rw [List.append_assoc, List.append_assoc, List.cons_append]
          exact List.perm_middle.map SegInfo.id
        have erased := (perm.trans moved).erase r.id
        rwa [List.erase_cons_head] at erased
      · rw [swept.total, List.filter_cons_of_pos (by simpa using inside), Intervals.size_cons]
        simp only
        omega
      · rw [swept.tiflags]
        simp [inside, or_assoc]
      · rw [swept.altered]
        simp [inside]
    · rw [if_neg (show ¬(start ≤ r.startseq ∧ fin ≥ r.endseq) from inside)]
      obtain ⟨next, ran, swept⟩ := ih later _
      refine ⟨next, ran, ?_, fun perm => swept.lifo ?_, ?_, fun i => ?_, ?_⟩
      · rw [swept.kept, List.filter_cons_of_pos (by simpa using inside)]
        simp
      · simpa using perm
      · rw [swept.total, List.filter_cons_of_neg (by simpa using inside)]
      · rw [swept.tiflags]
        simp [inside]
      · rw [swept.altered]
        simp [inside]

end Sweep

section Add

variable {s : ReassemblyQueue} {start fin : ℤ} {tiflags : TcpFlag}

/-- Blocks that the segment overlaps completely may be killed first, once their flags are kept. -/
theorem Merged.of_swept {t next : ReassemblyQueue} {m : SegInfo} {tiflags' : TcpFlag} (valid : s.Valid)
    (fifo : t.fifo = s.fifo.filter fun b => ¬Inside start fin b)
    (nxt : t.rcvNxt = s.rcvNxt) (other : ¬Exact s.fifo start fin)
    (bits : ∀ i, tiflags'.getLsbD i = true ↔
      tiflags.getLsbD i = true ∨ ∃ b ∈ s.fifo, Inside start fin b ∧ b.pflags.getLsbD i = true)
    (merged : Merged t start fin tiflags' next m) : Merged s start fin tiflags next m := by
  have proper := valid.separated.nonempty
  have mem : ∀ b, b ∈ t.fifo ↔ b ∈ s.fifo ∧ ¬Inside start fin b := by
    intro b
    rw [fifo, List.mem_filter]
    simp
  have crosses : ∀ b, Crosses start fin b → ¬Inside start fin b := fun b crossing => crossing.2.2
  have sameBridges : Bridges t.fifo start fin ↔ Bridges s.fifo start fin := by
    constructor
    · rintro ⟨a, inA, b, inB, found⟩
      exact ⟨a, ((mem a).mp inA).1, b, ((mem b).mp inB).1, found⟩
    · rintro ⟨a, inA, b, inB, found⟩
      exact ⟨a, (mem a).mpr ⟨inA, fun inside => absurd found.1 (not_lt.mpr inside.1)⟩, b,
        (mem b).mpr ⟨inB, fun inside => absurd found.2.2.2.2 (not_lt.mpr inside.2)⟩, found⟩
  have sameEnds : EndsAtHead t.fifo start fin ↔ EndsAtHead s.fifo start fin := by
    have starts : (∀ b ∈ t.fifo, b.startseq < fin) ↔ ∀ b ∈ s.fifo, b.startseq < fin := by
      refine ⟨fun all b member => ?_, fun all b member => all b ((mem b).mp member).1⟩
      by_cases inside : Inside start fin b
      · exact (proper b member).trans_le inside.2
      · exact all b ((mem b).mpr ⟨member, inside⟩)
    have stops : (∀ b ∈ t.fifo, start < b.endseq) ↔ ∀ b ∈ s.fifo, start < b.endseq := by
      refine ⟨fun all b member => ?_, fun all b member => all b ((mem b).mp member).1⟩
      by_cases inside : Inside start fin b
      · exact inside.1.trans_lt (proper b member)
      · exact all b ((mem b).mpr ⟨member, inside⟩)
    constructor
    · rintro ⟨x, member, crossing, only, found⟩
      rw [starts, stops] at found
      exact ⟨x, ((mem x).mp member).1, crossing, fun y inY crossY => only y ((mem y).mpr ⟨inY, crosses y crossY⟩) crossY,
        found⟩
    · rintro ⟨x, member, crossing, only, found⟩
      rw [← starts, ← stops] at found
      exact ⟨x, (mem x).mpr ⟨member, crosses x crossing⟩, crossing, fun y inY => only y ((mem y).mp inY).1, found⟩
  refine ⟨merged.valid, Absorbs.of_filter proper ?_, fun i => ?_, Or.inr ⟨other, ?_⟩⟩
  · have absorbs := merged.absorbs
    rw [fifo] at absorbs
    exact absorbs
  · rw [merged.flags, bits, or_assoc]
    refine or_congr_right ⟨?_, ?_⟩
    · rintro (⟨b, member, inside, bit⟩ | ⟨b, member, ⟨touches, passes⟩, bit⟩)
      · have properB := proper b member
        exact ⟨b, member, ⟨⟨inside.1.trans properB.le, properB.le.trans inside.2⟩,
          fun lost => absurd lost.2 (not_lt.mpr inside.2)⟩, bit⟩
      · rw [sameBridges] at passes
        exact ⟨b, ((mem b).mp member).1, ⟨touches, passes⟩, bit⟩
    · rintro ⟨b, member, ⟨touches, passes⟩, bit⟩
      by_cases inside : Inside start fin b
      · exact Or.inl ⟨b, member, inside, bit⟩
      · rw [← sameBridges] at passes
        exact Or.inr ⟨b, (mem b).mpr ⟨member, inside⟩, ⟨touches, passes⟩, bit⟩
  · rcases merged.nxt with ⟨⟨b, member, same, same'⟩, _⟩ | ⟨_, next⟩
    · exact absurd ⟨b, ((mem b).mp member).1, same, same'⟩ other
    · unfold NextNxt at next ⊢
      rwa [sameEnds, nxt] at next

/-- The segment is the block `x` already: only the flags change. -/
theorem Valid.merged_exact {low high : List SegInfo} {x : SegInfo} (valid : s.Valid) (nonempty : start < fin)
    (parts : s.fifo = low ++ x :: high) (left : start = x.startseq) (right : fin = x.endseq) :
    Merged s start fin tiflags
      { s with fifo := low ++ { x with pflags := x.pflags ||| tiflags } :: high }
      { x with pflags := x.pflags ||| tiflags } := by
  have pairs := valid.separated.apart
  rw [parts] at pairs
  have under : ∀ b ∈ low, b.endseq < start := fun b member =>
    left ▸ (List.pairwise_append.mp pairs).2.2 b member x List.mem_cons_self
  have beyond : ∀ b ∈ high, fin < b.startseq := fun b member =>
    right ▸ (List.pairwise_cons.mp (List.pairwise_append.mp pairs).2.1).1 b member
  refine valid.merged_block nonempty parts under beyond (by omega) (by omega) ⟨rfl, ?_, ?_⟩ (fun i => ?_) rfl rfl ?_ le_rfl
    (Or.inl ⟨⟨x, by simp [parts], left.symm, right.symm⟩, rfl⟩)
  · rw [left, min_self]
  · rw [right, max_self]
  · simp [or_comm]
  · simp

/-- The two searches of `add` find the blocks on both sides of those that meet the segment. -/
theorem search_places {low mid high : List SegInfo} (nonempty : start < fin)
    (proper : ∀ b ∈ low ++ mid ++ high, b.startseq < b.endseq) (below : ∀ b ∈ low, b.endseq ≤ start)
    (meets : ∀ b ∈ mid, start < b.endseq ∧ b.startseq < fin) (above : ∀ b ∈ high, start < b.endseq ∧ fin ≤ b.startseq) :
    ((low ++ mid ++ high).takeWhile (·.startseq < fin)).length = low.length + mid.length ∧
      ((low ++ mid ++ high).rdropWhile (·.endseq > start)).length = low.length := by
  constructor
  · have early : ∀ b ∈ low ++ mid, (decide (b.startseq < fin)) = true := by
      intro b member
      have properB := proper b (List.mem_append_left high member)
      rcases List.mem_append.mp member with old | new
      · have under := below b old
        exact decide_eq_true (by omega)
      · exact decide_eq_true (meets b new).2
    have late : high.takeWhile (·.startseq < fin) = [] := by
      cases high with
      | nil => rfl
      | cons q after =>
        have beyond := (above q List.mem_cons_self).2
        exact List.takeWhile_cons_of_neg (by simpa using beyond)
    rw [List.takeWhile_append_of_pos early, late, List.append_nil, List.length_append]
  · have late : ∀ b ∈ (mid ++ high).reverse, (decide (b.endseq > start)) = true := by
      intro b member
      rcases List.mem_append.mp (List.mem_reverse.mp member) with old | new
      · exact decide_eq_true (meets b old).1
      · exact decide_eq_true (above b new).1
    have early : low.reverse.dropWhile (·.endseq > start) = low.reverse := by
      rcases List.eq_nil_or_concat low with rfl | ⟨before, p, rfl⟩
      · rfl
      · have under := below p (by simp)
        rw [List.concat_eq_append, List.reverse_append, List.reverse_singleton, List.singleton_append,
          List.dropWhile_cons_of_neg (by simpa using under)]
    rw [List.rdropWhile, List.append_assoc, List.reverse_append, List.dropWhile_append_of_pos late, early,
      List.reverse_reverse]

/-- The pass starts at `p`, which the segment does not overlap. -/
theorem sweep_around {low : List SegInfo} (mid high : List SegInfo) (fin : ℤ) (proper : ∀ b ∈ low, b.startseq < b.endseq) (below : ∀ b ∈ low, b.endseq ≤ start) (lifo : List ℕ) (total : ℤ)
    (tiflags : TcpFlag) (initcnt : ℤ) :
    sweep start fin (((low ++ mid ++ high).take (low.length + mid.length)).drop (low.length - 1))
        ⟨(low ++ mid ++ high).take (low.length - 1), lifo, total, tiflags, initcnt, false⟩ =
      sweep start fin mid ⟨low, lifo, total, tiflags, initcnt, false⟩ := by
  rw [← List.length_append, List.take_left' rfl, List.append_assoc]
  rcases List.eq_nil_or_concat low with rfl | ⟨before, p, rfl⟩
  · rfl
  · rw [List.concat_eq_append] at *
    have properP := proper p (by simp)
    have under := below p (by simp)
    have outside : ∀ b ∈ [p], ¬Inside start fin b :=
      List.forall_mem_singleton.mpr fun inside => by
        have left := inside.1
        omega
    have place : (before ++ [p]).length - 1 = before.length := by simp
    rw [place, List.append_assoc, List.append_assoc, List.take_left' rfl, List.drop_left' rfl, sweep_append outside]

/-- An exactly overlapped block is the only one that meets the segment. -/
theorem exact_alone {mid : List SegInfo} {x : SegInfo} (separated : Separated SegInfo.startseq SegInfo.endseq mid)
    (meets : ∀ b ∈ mid, start < b.endseq ∧ b.startseq < fin) (member : x ∈ mid) (left : start = x.startseq)
    (right : fin = x.endseq) : mid = [x] := by
  obtain ⟨before, after, rfl⟩ := List.append_of_mem member
  have pairs := List.pairwise_append.mp separated.apart
  have noBefore : before = [] := by
    refine List.eq_nil_iff_forall_not_mem.mpr fun b inside => ?_
    have apart := pairs.2.2 b inside x List.mem_cons_self
    have reaches := (meets b (List.mem_append_left _ inside)).1
    omega
  have noAfter : after = [] := by
    refine List.eq_nil_iff_forall_not_mem.mpr fun b inside => ?_
    have apart := (List.pairwise_cons.mp pairs.2.1).1 b inside
    have reaches := (meets b (List.mem_append_right before (List.mem_cons_of_mem x inside))).2
    omega
  rw [noBefore, noAfter, List.nil_append]

theorem Valid.swept {low mid high : List SegInfo} {w : Sweep} (valid : s.Valid) (parts : s.fifo = low ++ mid ++ high)
    (initcnt : ℤ) (swept : Swept start fin mid high ⟨low, s.lifo, s.total, tiflags, initcnt, false⟩ w)
    (filtered : w.kept ++ high = s.fifo.filter fun b => ¬Inside start fin b) :
    ({ s with fifo := w.kept ++ high, lifo := w.lifo, total := w.total } : ReassemblyQueue).Valid where
  separated := by
    simp only [filtered]
    exact valid.separated.sublist List.filter_sublist
  linked := swept.lifo (parts ▸ valid.linked)
  distinct := by
    simp only [filtered]
    exact valid.distinct.sublist (List.filter_sublist.map SegInfo.id)
  used b member := by
    simp only [filtered] at member
    exact valid.used b (List.mem_filter.mp member).1
  total := by
    have whole := valid.total
    have split := Intervals.size_filter SegInfo.startseq SegInfo.endseq (Inside start fin) mid
    have kept := swept.kept
    rw [parts, size_middle] at whole
    simp only [kept, swept.total, size_middle]
    omega

theorem Valid.again2_merged (valid : s.Valid) (nonempty : start < fin) (bare : s.fifo ≠ []) (tiflags : TcpFlag)
    (rqflags : BitVec 32) (initcnt : ℤ) :
    ∃ next flags m, s.again2 start fin tiflags rqflags initcnt = some (next, flags) ∧
      Merged s start fin tiflags next m := by
  induction length : s.fifo.length using Nat.strong_induction_on generalizing s tiflags initcnt with
  | _ n ih =>
    obtain ⟨head, rest, front⟩ := List.exists_cons_of_ne_nil bare
    obtain ⟨before, tail, back⟩ := (List.eq_nil_or_concat s.fifo).resolve_left bare
    rw [List.concat_eq_append] at back
    have headEq : s.fifo.head? = some head := by rw [front]; rfl
    have tailEq : s.fifo.getLast? = some tail := by rw [back, List.getLast?_concat]
    have separated := valid.separated
    rw [again2]
    simp only [headEq, tailEq]
    by_cases atTail : start ≥ tail.endseq
    · rw [if_pos atTail]
      have under : ∀ b ∈ s.fifo, b.endseq ≤ start := by
        intro b member
        rw [back] at member
        rcases List.mem_append.mp member with old | new
        · have pairs := back ▸ separated.hi_lt
          have less := (List.pairwise_append.mp pairs).2.2 b old tail (List.mem_singleton_self tail)
          omega
        · exact List.mem_singleton.mp new ▸ atTail
      refine valid.endfast_merged nonempty (List.append_nil s.fifo).symm under
        (fun b member => absurd member List.not_mem_nil) tiflags rqflags initcnt ?_
      simp [tailEq, eq_comm]
    rw [if_neg atTail]
    by_cases atHead : fin ≤ head.startseq
    · rw [if_pos atHead]
      have beyond : ∀ b ∈ s.fifo, fin ≤ b.startseq := by
        intro b member
        rw [front] at member
        rcases List.mem_cons.mp member with new | old
        · exact new ▸ atHead
        · have pairs := front ▸ separated.lo_lt
          have less := (List.pairwise_cons.mp pairs).1 b old
          omega
      refine valid.endfast_merged nonempty (show s.fifo = [] ++ s.fifo from rfl)
        (fun b member => absurd member List.not_mem_nil) beyond tiflags rqflags initcnt ?_
      simp [headEq, eq_comm]
    rw [if_neg atHead]
    obtain ⟨low, mid, high, parts, below, meets, above⟩ := separated.split start fin
    rw [parts] at separated
    have proper := separated.nonempty
    obtain ⟨places, places'⟩ := search_places nonempty proper below meets above
    rw [← parts] at places places'
    have separatedMid := (separated.sublist (List.sublist_append_left _ high)).sublist
      (List.sublist_append_right low mid)
    have started := sweep_around mid high fin
      (fun b member => proper b (List.mem_append_left high (List.mem_append_left mid member))) below s.lifo s.total tiflags
      initcnt
    have dropped : s.fifo.drop (low.length + mid.length) = high := by
      rw [parts]
      exact List.drop_left' (List.length_append ..)
    rw [← parts] at started
    by_cases exact : ∃ x ∈ mid, start = x.startseq ∧ fin = x.endseq
    · obtain ⟨x, member, left, right⟩ := exact
      obtain rfl := exact_alone separatedMid meets member left right
      have ran : sweep start fin [x] ⟨low, s.lifo, s.total, tiflags, initcnt, false⟩ =
          ({ kept := low ++ [{ x with pflags := x.pflags ||| tiflags }], lifo := s.lifo, total := s.total, tiflags,
             initcnt, altered := false }, some (x.pflags ||| tiflags)) := by
        rw [sweep, if_pos ⟨left, right⟩]
      split
      · rename_i w flags swept
        rw [places, places', started, ran] at swept
        cases swept
        rw [List.append_assoc, List.singleton_append] at parts
        refine ⟨_, _, { x with pflags := x.pflags ||| tiflags }, rfl, ?_⟩
        simp only [places, dropped, List.append_assoc, List.singleton_append]
        exact valid.merged_exact nonempty parts left right
      · rename_i w swept
        rw [places, places', started, ran] at swept
        cases swept
    · have other : ¬Exact s.fifo start fin := by
        rintro ⟨b, member, left, right⟩
        rw [parts] at member
        rcases List.mem_append.mp member with early | late
        · rcases List.mem_append.mp early with old | inner
          · have under := below b old
            omega
          · exact exact ⟨b, inner, left.symm, right.symm⟩
        · have beyond := (above b late).2
          omega
      by_cases some_ : ∃ b ∈ mid, Inside start fin b
      · obtain ⟨w, ran, swept⟩ := sweep_swept (fun b member same => exact ⟨b, member, same⟩) high
          ⟨low, s.lifo, s.total, tiflags, initcnt, false⟩
        have filtered : w.kept ++ high = s.fifo.filter fun b => ¬Inside start fin b := by
          have lowKept : low.filter (fun b => ¬Inside start fin b) = low := by
            refine List.filter_eq_self.mpr fun b member => decide_eq_true fun inside => ?_
            have properB := proper b (List.mem_append_left high (List.mem_append_left mid member))
            have under := below b member
            have left := inside.1
            omega
          have highKept : high.filter (fun b => ¬Inside start fin b) = high := by
            refine List.filter_eq_self.mpr fun b member => decide_eq_true fun inside => ?_
            have properB := proper b (List.mem_append_right _ member)
            have beyond := (above b member).2
            have right := inside.2
            omega
          rw [swept.kept, parts, List.filter_append, List.filter_append, lowKept, highKept]
        have altered : w.altered = true := swept.altered.mpr (Or.inr some_)
        have bits : ∀ i, w.tiflags.getLsbD i = true ↔
            tiflags.getLsbD i = true ∨ ∃ b ∈ s.fifo, Inside start fin b ∧ b.pflags.getLsbD i = true := by
          intro i
          have fromMid : ∀ b ∈ s.fifo, Inside start fin b → b ∈ mid := by
            intro b member inside
            have kept : b ∉ w.kept ++ high := by
              rw [filtered, List.mem_filter]
              simp [inside]
            rw [parts] at member
            rcases List.mem_append.mp member with early | late
            · rcases List.mem_append.mp early with old | new
              · rw [swept.kept] at kept
                exact absurd (List.mem_append_left high (List.mem_append_left _ old)) kept
              · exact new
            · exact absurd (List.mem_append_right w.kept late) kept
          rw [swept.tiflags]
          refine or_congr_right ⟨?_, ?_⟩
          · rintro ⟨b, member, found⟩
            exact ⟨b, parts ▸ List.mem_append_left high (List.mem_append_right low member), found⟩
          · rintro ⟨b, member, inside, bit⟩
            exact ⟨b, fromMid b member inside, inside, bit⟩
        have valid' := valid.swept parts initcnt swept filtered
        split
        · rename_i w' flags swept'
          rw [places, places', started, ran] at swept'
          cases swept'
        · rename_i w' swept'
          rw [places, places', started, ran] at swept'
          cases swept'
          simp only [places, dropped, altered, ↓reduceIte]
          by_cases empty : w.kept ++ high = []
          · have noNeighbour : false = true ↔ (∃ p ∈ ([] : List SegInfo).getLast?, p.endseq = start) ∨
                ∃ q ∈ ([] : List SegInfo).head?, q.startseq = fin := by simp
            obtain ⟨next, flags, m, placed, merged⟩ := valid'.endfast_merged nonempty
              (show w.kept ++ high = [] ++ [] from empty) (fun b member => absurd member List.not_mem_nil)
              (fun b member => absurd member List.not_mem_nil) w.tiflags rqflags w.initcnt noNeighbour
            refine ⟨next, flags, m, ?_, Merged.of_swept valid filtered (by rfl) other bits merged⟩
            rw [if_pos empty]
            exact placed
          · have shorter : (w.kept ++ high).length < n := by
              obtain ⟨b, member, inside⟩ := some_
              have inFifo : b ∈ s.fifo := parts ▸ List.mem_append_left high (List.mem_append_right low member)
              rw [filtered, ← length]
              exact List.length_filter_lt_length_iff_exists.mpr ⟨b, inFifo, by simp [inside]⟩
            obtain ⟨next, flags, m, again, merged⟩ := ih _ shorter valid' empty w.tiflags w.initcnt rfl
            refine ⟨next, flags, m, ?_, Merged.of_swept valid filtered (by rfl) other bits merged⟩
            rw [if_neg empty]
            exact again
      · have outside : ∀ b ∈ mid, ¬Inside start fin b := fun b member inside => some_ ⟨b, member, inside⟩
        have ran := sweep_outside (w := ⟨low, s.lifo, s.total, tiflags, initcnt, false⟩) outside
        have inner : mid = [] → low ≠ [] ∧ high ≠ [] := by
          rintro rfl
          constructor
          · rintro rfl
            have only : s.fifo = high := parts
            exact atHead (above head (by rw [← only, front]; exact List.mem_cons_self)).2
          · rintro rfl
            have only : s.fifo = low := by simpa using parts
            exact atTail (below tail (by rw [← only, back]; simp))
        split
        · rename_i w flags swept
          rw [places, places', started, ran] at swept
          cases swept
        · rename_i w swept
          rw [places, places', started, ran] at swept
          cases swept
          simp only [places, places', dropped, ← parts, if_neg bare, Bool.false_eq_true, ↓reduceIte]
          exact valid.mergeSides_merged nonempty parts below meets (fun b member => (above b member).2) outside inner
            tiflags rqflags initcnt

/-- Adding a segment never aborts and puts it in, whatever it overlaps. -/
theorem Valid.add_merged (valid : s.Valid) (nonempty : start < fin) (tiflags : TcpFlag) (rqflags : BitVec 32) :
    ∃ next flags m, s.add start fin tiflags rqflags = some (next, flags) ∧ Merged s start fin tiflags next m := by
  rw [add, if_neg (not_lt.mpr nonempty.le)]
  by_cases bare : s.fifo = []
  · have unlinked : s.lifo = [] := by
      have linked := valid.linked
      rw [bare] at linked
      exact linked.eq_nil
    have counted : s.total = 0 := by
      rw [valid.total, bare]
      rfl
    rw [if_pos bare, if_neg (not_not.mpr unlinked)]
    refine ⟨_, _, ⟨s.fresh, start, fin, tiflags, rqflags, 1⟩, rfl, ?_⟩
    refine valid.merged_new nonempty (show s.fifo = [] ++ [] from bare) (fun _ member => absurd member List.not_mem_nil)
      (fun _ member => absurd member List.not_mem_nil) ⟨rfl, rfl, rfl, rfl⟩ rfl ?_ ?_ rfl rfl
    · rw [unlinked]
      rfl
    · rw [counted, zero_add]
      rfl
  · rw [if_neg bare]
    exact valid.again2_merged nonempty bare tiflags rqflags 1

theorem make_valid (rcvnxt : ℤ) : (make rcvnxt).Valid where
  separated := Separated.nil
  linked := List.Perm.nil
  distinct := List.nodup_nil
  used _ member := absurd member List.not_mem_nil
  total := rfl

theorem clear_valid (s : ReassemblyQueue) : s.clear.Valid where
  separated := Separated.nil
  linked := List.Perm.nil
  distinct := List.nodup_nil
  used _ member := absurd member List.not_mem_nil
  total := rfl

end Add

end Ns2.ReassemblyQueue
