import Ns2.Tcp.ReassemblyQueue

namespace Ns2.ReassemblyQueue

open Intervals (Separated Absorbs Touches size)

/-- The two lists are in order and hold the same nodes, and `total_` counts their bytes. -/
structure Valid (s : ReassemblyQueue) : Prop where
  separated : Separated SegInfo.startseq SegInfo.endseq s.fifo
  linked : s.lifo.Perm (s.fifo.map SegInfo.id)
  distinct : (s.fifo.map SegInfo.id).Nodup
  used : ∀ b ∈ s.fifo, b.id < s.fresh
  total : s.total = size SegInfo.startseq SegInfo.endseq s.fifo

/-- A block that reaches into `[start, fin)` and out of it. -/
def Crosses (start fin : ℤ) (b : SegInfo) : Prop :=
  start < b.endseq ∧ b.startseq < fin ∧ ¬(start ≤ b.startseq ∧ b.endseq ≤ fin)

instance Crosses.decidable (start fin : ℤ) (b : SegInfo) : Decidable (Crosses start fin b) :=
  inferInstanceAs (Decidable (_ ∧ _))

/-- The segment lies in one block, or hangs over the end of the last or the start of the
first one: `add` then returns before `coalesce` and looks at `head_` for `rcv_nxt_`. -/
def EndsAtHead (l : List SegInfo) (start fin : ℤ) : Prop :=
  ∃ x ∈ l, Crosses start fin x ∧ (∀ y ∈ l, Crosses start fin y → y = x) ∧
    (x.startseq ≤ start ∧ fin ≤ x.endseq ∨ (x.startseq < start ∧ ∀ y ∈ l, y.startseq < fin) ∨
      fin < x.endseq ∧ ∀ y ∈ l, start < y.endseq)

instance EndsAtHead.decidable (l : List SegInfo) (start fin : ℤ) : Decidable (EndsAtHead l start fin) :=
  inferInstanceAs (Decidable (∃ x ∈ l, _))

/-- A block that is in place below the segment and one above it are joined by it. -/
def Bridges (l : List SegInfo) (start fin : ℤ) : Prop :=
  ∃ a ∈ l, ∃ b ∈ l, a.startseq < start ∧ start ≤ a.endseq ∧ a.endseq < b.startseq ∧ b.startseq ≤ fin ∧ fin < b.endseq

instance Bridges.decidable (l : List SegInfo) (start fin : ℤ) : Decidable (Bridges l start fin) :=
  inferInstanceAs (Decidable (∃ a ∈ l, ∃ b ∈ l, _))

/-- The blocks whose flags the merged block takes over: all that the segment touches,
but not the upper one of two that it joins. -/
def Passes (l : List SegInfo) (start fin : ℤ) (b : SegInfo) : Prop :=
  Touches SegInfo.startseq SegInfo.endseq start fin b ∧ ¬(Bridges l start fin ∧ fin < b.endseq)

instance Passes.decidable (l : List SegInfo) (start fin : ℤ) (b : SegInfo) : Decidable (Passes l start fin b) :=
  inferInstanceAs (Decidable (_ ∧ _))

/-- The segment is a block already. -/
def Exact (l : List SegInfo) (start fin : ℤ) : Prop := ∃ b ∈ l, b.startseq = start ∧ b.endseq = fin

instance Exact.decidable (l : List SegInfo) (start fin : ℤ) : Decidable (Exact l start fin) :=
  inferInstanceAs (Decidable (∃ b ∈ l, _))

/-- `rcv_nxt_` when a block from `start` to `fin` is looked at. -/
def reached (nxt start fin : ℤ) : ℤ := if nxt ≥ start then fin else nxt

/-- What `add` leaves of `rcv_nxt_` after the merged block `m` has been put in. -/
def NextNxt (s : ReassemblyQueue) (start fin : ℤ) (m : SegInfo) (next : ReassemblyQueue) : Prop :=
  (EndsAtHead s.fifo start fin ∧
      ∃ h, next.fifo.head? = some h ∧ next.rcvNxt = reached s.rcvNxt h.startseq h.endseq) ∨
    ¬EndsAtHead s.fifo start fin ∧ next.rcvNxt = reached s.rcvNxt m.startseq m.endseq

/-- The segment has been put in, and `m` is the block that it is part of now. -/
structure Merged (s : ReassemblyQueue) (start fin : ℤ) (tiflags : TcpFlag) (next : ReassemblyQueue)
    (m : SegInfo) : Prop where
  valid : next.Valid
  absorbs : Absorbs SegInfo.startseq SegInfo.endseq start fin s.fifo m next.fifo
  flags : ∀ i, m.pflags.getLsbD i = true ↔
    tiflags.getLsbD i = true ∨ ∃ b ∈ s.fifo, Passes s.fifo start fin b ∧ b.pflags.getLsbD i = true
  nxt : Exact s.fifo start fin ∧ next.rcvNxt = s.rcvNxt ∨ ¬Exact s.fifo start fin ∧ NextNxt s start fin m next

theorem EndsAtHead.crossing {l : List SegInfo} {start fin : ℤ} (ends : EndsAtHead l start fin) :
    ∃ b ∈ l, Crosses start fin b := by
  obtain ⟨x, member, crosses, _⟩ := ends
  exact ⟨x, member, crosses⟩

theorem size_middle (low mid high : List SegInfo) :
    size SegInfo.startseq SegInfo.endseq (low ++ mid ++ high) = size SegInfo.startseq SegInfo.endseq low +
      size SegInfo.startseq SegInfo.endseq mid + size SegInfo.startseq SegInfo.endseq high := by
  rw [Intervals.size_append, Intervals.size_append]

/-- Two blocks joined by the segment are in nobody's way at the head. -/
theorem not_endsAtHead_of_two {l : List SegInfo} {start fin : ℤ} {x y : SegInfo}
    (separated : Separated SegInfo.startseq SegInfo.endseq l) (inX : x ∈ l) (inY : y ∈ l) (left : x.startseq < start)
    (touchX : start ≤ x.endseq) (apart : x.endseq < y.startseq) (touchY : y.startseq ≤ fin) (right : fin < y.endseq) :
    ¬EndsAtHead l start fin := by
  rintro ⟨w, member, ⟨reachesW, startsW, _⟩, only, inside | ⟨early, last⟩ | ⟨late, first⟩⟩
  · rcases separated.eq_or_apart member inX with rfl | before | after <;>
      rcases separated.eq_or_apart member inY with rfl | before' | after' <;> omega
  · have crosses : Crosses start fin y := ⟨by omega, last y inY, by omega⟩
    obtain rfl := only y inY crosses
    omega
  · have crosses : Crosses start fin x := ⟨first x inX, by omega, by omega⟩
    obtain rfl := only x inX crosses
    omega

section Shapes

variable {s next : ReassemblyQueue} {start fin : ℤ} {tiflags : TcpFlag} {n x y m : SegInfo}
  {low high : List SegInfo}

/-- The segment touches no block and becomes one. -/
theorem Valid.merged_new (valid : s.Valid) (nonempty : start < fin) (parts : s.fifo = low ++ high)
    (below : ∀ b ∈ low, b.endseq < start) (above : ∀ b ∈ high, fin < b.startseq)
    (new : n.id = s.fresh ∧ n.startseq = start ∧ n.endseq = fin ∧ n.pflags = tiflags)
    (fifo : next.fifo = low ++ n :: high) (lifo : next.lifo = s.fresh :: s.lifo)
    (total : next.total = s.total + (fin - start)) (fresh : next.fresh = s.fresh + 1)
    (nxt : next.rcvNxt = reached s.rcvNxt start fin) : Merged s start fin tiflags next n := by
  obtain ⟨node, left, right, flags⟩ := new
  have proper : ∀ b ∈ low ++ high, b.startseq < b.endseq := parts ▸ valid.separated.nonempty
  have apart : ∀ b ∈ s.fifo, b.endseq < start ∨ fin < b.startseq := by
    intro b member
    rw [parts] at member
    exact (List.mem_append.mp member).imp (below b) (above b)
  have absorbs : Absorbs SegInfo.startseq SegInfo.endseq start fin s.fifo n next.fifo := by
    rw [fifo, show s.fifo = low ++ [] ++ high by rw [parts, List.append_nil]]
    refine Absorbs.of_parts nonempty (fun b member => ⟨proper b (List.mem_append_left high member), below b member⟩)
      ?_ (fun b member => ⟨proper b (List.mem_append_right low member), above b member⟩) left.le right.ge ?_
      (Or.inl left) (Or.inl right)
    all_goals exact fun b member => absurd member List.not_mem_nil
  have perm : next.fifo.Perm (n :: s.fifo) := by
    rw [fifo, parts]
    exact List.perm_middle
  have ids := perm.map SegInfo.id
  refine ⟨⟨absorbs.separated valid.separated nonempty, ?_, ?_, ?_, ?_⟩, absorbs, ?_, Or.inr ⟨?_, Or.inr ⟨?_, ?_⟩⟩⟩
  · rw [lifo]
    refine List.Perm.trans ?_ ids.symm
    rw [List.map_cons, node]
    exact valid.linked.cons _
  · refine ids.nodup_iff.mpr (List.nodup_cons.mpr ⟨fun again => ?_, valid.distinct⟩)
    obtain ⟨b, member, same⟩ := List.mem_map.mp again
    have older := valid.used b member
    omega
  · intro b member
    rw [fresh]
    rcases List.mem_cons.mp (perm.mem_iff.mp member) with same | old
    · rw [same]
      omega
    · have older := valid.used b old
      omega
  · have whole := valid.total
    rw [parts, Intervals.size_append] at whole
    rw [total, fifo, Intervals.size_append, Intervals.size_cons]
    omega
  · intro i
    rw [flags]
    refine ⟨Or.inl, fun claimed => claimed.resolve_right ?_⟩
    rintro ⟨b, member, ⟨⟨touches, touches'⟩, _⟩, _⟩
    rcases apart b member with before | after <;> omega
  · rintro ⟨b, member, same, same'⟩
    rcases apart b member with before | after <;> omega
  · rintro ⟨b, member, ⟨touches, touches', _⟩, _⟩
    rcases apart b member with before | after <;> omega
  · rw [nxt, left, right]

/-- The segment and the block `x` become one block in the place of `x`. -/
theorem Valid.merged_block (valid : s.Valid) (nonempty : start < fin) (parts : s.fifo = low ++ x :: high)
    (below : ∀ b ∈ low, b.endseq < start) (above : ∀ b ∈ high, fin < b.startseq) (touches : start ≤ x.endseq)
    (touches' : x.startseq ≤ fin)
    (new : m.id = x.id ∧ m.startseq = min start x.startseq ∧ m.endseq = max fin x.endseq)
    (flags : ∀ i, m.pflags.getLsbD i = true ↔ tiflags.getLsbD i = true ∨ x.pflags.getLsbD i = true)
    (fifo : next.fifo = low ++ m :: high) (lifo : next.lifo = s.lifo)
    (total : next.total = s.total + ((m.endseq - m.startseq) - (x.endseq - x.startseq)))
    (fresh : s.fresh ≤ next.fresh)
    (nxt : Exact s.fifo start fin ∧ next.rcvNxt = s.rcvNxt ∨ ¬Exact s.fifo start fin ∧ NextNxt s start fin m next) :
    Merged s start fin tiflags next m := by
  obtain ⟨node, left, right⟩ := new
  have proper : ∀ b ∈ low ++ x :: high, b.startseq < b.endseq := parts ▸ valid.separated.nonempty
  have only : ∀ b ∈ s.fifo, b.endseq < start ∨ b = x ∨ fin < b.startseq := by
    intro b member
    rw [parts] at member
    rcases List.mem_append.mp member with early | late
    · exact Or.inl (below b early)
    · exact Or.inr ((List.mem_cons.mp late).imp_right (above b))
  have inside : x ∈ s.fifo := by
    rw [parts]
    exact List.mem_append_right low List.mem_cons_self
  have absorbs : Absorbs SegInfo.startseq SegInfo.endseq start fin s.fifo m next.fifo := by
    rw [fifo, show s.fifo = low ++ [x] ++ high by rw [parts, List.append_assoc]; rfl]
    refine Absorbs.of_parts nonempty (fun b member => ⟨proper b (List.mem_append_left _ member), below b member⟩)
      (List.forall_mem_singleton.mpr ⟨touches, touches'⟩)
      (fun b member => ⟨proper b (List.mem_append_right low (List.mem_cons_of_mem x member)), above b member⟩)
      (by omega) (by omega) (List.forall_mem_singleton.mpr ⟨by omega, by omega⟩) ?_ ?_
    · rcases min_choice start x.startseq with first | second
      · exact Or.inl (left.trans first)
      · exact Or.inr ⟨x, List.mem_singleton_self x, (left.trans second).symm⟩
    · rcases max_choice fin x.endseq with first | second
      · exact Or.inl (right.trans first)
      · exact Or.inr ⟨x, List.mem_singleton_self x, (right.trans second).symm⟩
  have ids : next.fifo.map SegInfo.id = s.fifo.map SegInfo.id := by
    rw [fifo, parts]
    simp only [List.map_append, List.map_cons, node]
  have noBridge : ¬Bridges s.fifo start fin := by
    rintro ⟨a, inA, b, inB, _, touchA, apart, touchB, _⟩
    have properA := valid.separated.nonempty a inA
    have properB := valid.separated.nonempty b inB
    rcases only a inA with before | rfl | after <;> rcases only b inB with before' | rfl | after' <;> omega
  refine ⟨⟨absorbs.separated valid.separated nonempty, ?_, ?_, ?_, ?_⟩, absorbs, ?_, nxt⟩
  · rw [lifo, ids]
    exact valid.linked
  · rw [ids]
    exact valid.distinct
  · intro b member
    have older : b.id ∈ s.fifo.map SegInfo.id := ids ▸ List.mem_map_of_mem member
    obtain ⟨c, inC, same⟩ := List.mem_map.mp older
    have bound := valid.used c inC
    omega
  · have whole := valid.total
    rw [parts, Intervals.size_append, Intervals.size_cons] at whole
    rw [total, fifo, Intervals.size_append, Intervals.size_cons]
    omega
  · intro i
    rw [flags]
    refine or_congr_right ⟨fun bit => ⟨x, inside, ⟨⟨touches, touches'⟩, fun bridged => noBridge bridged.1⟩, bit⟩, ?_⟩
    rintro ⟨b, member, ⟨⟨touchB, touchB'⟩, _⟩, bit⟩
    rcases only b member with before | rfl | after
    · exact absurd before (not_lt.mpr touchB)
    · exact bit
    · exact absurd after (not_lt.mpr touchB')

theorem Valid.merged_one (valid : s.Valid) (nonempty : start < fin) (parts : s.fifo = low ++ x :: high)
    (below : ∀ b ∈ low, b.endseq < start) (above : ∀ b ∈ high, fin < b.startseq) (touches : start ≤ x.endseq)
    (touches' : x.startseq ≤ fin) (other : ¬(x.startseq = start ∧ x.endseq = fin))
    (new : m.id = x.id ∧ m.startseq = min start x.startseq ∧ m.endseq = max fin x.endseq)
    (flags : ∀ i, m.pflags.getLsbD i = true ↔ tiflags.getLsbD i = true ∨ x.pflags.getLsbD i = true)
    (fifo : next.fifo = low ++ m :: high) (lifo : next.lifo = s.lifo)
    (total : next.total = s.total + ((m.endseq - m.startseq) - (x.endseq - x.startseq)))
    (fresh : s.fresh ≤ next.fresh) (nxt : NextNxt s start fin m next) : Merged s start fin tiflags next m := by
  refine valid.merged_block nonempty parts below above touches touches' new flags fifo lifo total fresh
    (Or.inr ⟨?_, nxt⟩)
  rintro ⟨b, member, same, same'⟩
  rw [parts] at member
  rcases List.mem_append.mp member with early | late
  · have before := below b early
    omega
  · rcases List.mem_cons.mp late with rfl | later
    · exact other ⟨same, same'⟩
    · have after := above b later
      omega

/-- The segment joins the block `x` below it to the block `y` above it, in the place of `x`. -/
theorem Valid.merged_two (valid : s.Valid) (nonempty : start < fin) (parts : s.fifo = low ++ x :: y :: high)
    (below : ∀ b ∈ low, b.endseq < start) (above : ∀ b ∈ high, fin < b.startseq) (left : x.startseq < start)
    (touches : start ≤ x.endseq) (touches' : y.startseq ≤ fin) (right : fin < y.endseq)
    (new : m.id = x.id ∧ m.startseq = x.startseq ∧ m.endseq = y.endseq)
    (flags : ∀ i, m.pflags.getLsbD i = true ↔ tiflags.getLsbD i = true ∨ x.pflags.getLsbD i = true)
    (fifo : next.fifo = low ++ m :: high) (lifo : next.lifo = s.lifo.erase y.id)
    (total : next.total = s.total + (y.startseq - x.endseq)) (fresh : s.fresh ≤ next.fresh)
    (nxt : next.rcvNxt = reached s.rcvNxt m.startseq m.endseq) : Merged s start fin tiflags next m := by
  obtain ⟨node, first, last⟩ := new
  have proper : ∀ b ∈ low ++ x :: y :: high, b.startseq < b.endseq := parts ▸ valid.separated.nonempty
  have inX : x ∈ s.fifo := by simp [parts]
  have inY : y ∈ s.fifo := by simp [parts]
  have apart : x.endseq < y.startseq := by
    have pairs := valid.separated.apart
    rw [parts, List.pairwise_append, List.pairwise_cons] at pairs
    exact pairs.2.1.1 y List.mem_cons_self
  have only : ∀ b ∈ s.fifo, b.endseq < start ∨ b = x ∨ b = y ∨ fin < b.startseq := by
    intro b member
    rw [parts] at member
    rcases List.mem_append.mp member with early | late
    · exact Or.inl (below b early)
    · exact Or.inr ((List.mem_cons.mp late).imp_right fun rest => (List.mem_cons.mp rest).imp_right (above b))
  have absorbs : Absorbs SegInfo.startseq SegInfo.endseq start fin s.fifo m next.fifo := by
    rw [fifo, show s.fifo = low ++ [x, y] ++ high by rw [parts, List.append_assoc]; rfl]
    refine Absorbs.of_parts nonempty (fun b member => ⟨proper b (List.mem_append_left _ member), below b member⟩)
      ?_ (fun b member => ⟨proper b (by simp [member]), above b member⟩) (by omega) (by omega) ?_
      (Or.inr ⟨x, by simp, first.symm⟩) (Or.inr ⟨y, by simp, last.symm⟩)
    · intro b member
      rcases List.mem_pair.mp member with rfl | rfl
      · exact ⟨touches, by omega⟩
      · exact ⟨by omega, touches'⟩
    · intro b member
      rcases List.mem_pair.mp member with rfl | rfl <;> constructor <;> omega
  have perm : (s.fifo.map SegInfo.id).Perm (y.id :: next.fifo.map SegInfo.id) := by
    rw [fifo, parts]
    simp only [List.map_append, List.map_cons, node]
    rw [List.append_cons]
    refine List.perm_middle.trans ?_
    rw [List.append_assoc, List.singleton_append]
  have bridges : Bridges s.fifo start fin := ⟨x, inX, y, inY, left, touches, apart, touches', right⟩
  refine ⟨⟨absorbs.separated valid.separated nonempty, ?_, ?_, ?_, ?_⟩, absorbs, ?_, Or.inr ⟨?_, Or.inr ⟨?_, nxt⟩⟩⟩
  · rw [lifo]
    have erased := (valid.linked.trans perm).erase y.id
    rwa [List.erase_cons_head] at erased
  · exact (List.nodup_cons.mp (perm.nodup_iff.mp valid.distinct)).2
  · intro b member
    have older := perm.mem_iff.mpr (List.mem_cons_of_mem _ (List.mem_map_of_mem member))
    obtain ⟨c, inC, same⟩ := List.mem_map.mp older
    have bound := valid.used c inC
    omega
  · have whole := valid.total
    rw [parts, Intervals.size_append, Intervals.size_cons, Intervals.size_cons] at whole
    rw [total, fifo, Intervals.size_append, Intervals.size_cons]
    omega
  · intro i
    rw [flags]
    refine or_congr_right ⟨fun bit => ⟨x, inX, ⟨⟨touches, by omega⟩, fun lost => by omega⟩, bit⟩, ?_⟩
    rintro ⟨b, member, ⟨⟨touchB, touchB'⟩, passes⟩, bit⟩
    rcases only b member with before | rfl | rfl | after
    · exact absurd before (not_lt.mpr touchB)
    · exact bit
    · exact absurd ⟨bridges, right⟩ passes
    · exact absurd after (not_lt.mpr touchB')
  · rintro ⟨b, member, same, same'⟩
    rcases only b member with before | rfl | rfl | after <;> omega
  · exact not_endsAtHead_of_two valid.separated inX inY left touches apart touches' right

end Shapes

section Endfast

variable {s : ReassemblyQueue} {i : ℕ} {start fin : ℤ} {low high : List SegInfo}

theorem endfast_alone (parts : s.fifo = low ++ high) (place : i = low.length) (start fin : ℤ) (tiflags : TcpFlag)
    (rqflags : BitVec 32) (initcnt : ℤ) :
    ∃ next n, s.endfast i i start fin tiflags rqflags initcnt false = some (next, tiflags) ∧
      next.fifo = low ++ n :: high ∧ next.lifo = s.fresh :: s.lifo ∧ next.total = s.total + (fin - start) ∧
      next.fresh = s.fresh + 1 ∧ next.rcvNxt = reached s.rcvNxt start fin ∧
      n.id = s.fresh ∧ n.startseq = start ∧ n.endseq = fin ∧ n.pflags = tiflags := by
  refine ⟨_, ⟨s.fresh, start, fin, tiflags, rqflags, initcnt⟩, rfl, ?_, rfl, rfl, rfl, rfl, rfl, rfl, rfl, rfl⟩
  simp [advance, parts, place]

theorem endfast_joinPrev {p : SegInfo} (parts : s.fifo = low ++ p :: high) (place : i = low.length + 1)
    (adjoins : p.endseq = start) (free : ∀ q ∈ high, q.startseq ≠ fin) (tiflags : TcpFlag) (rqflags : BitVec 32)
    (initcnt : ℤ) :
    ∃ next flags m, s.endfast i i start fin tiflags rqflags initcnt true = some (next, flags) ∧
      next.fifo = low ++ m :: high ∧ next.lifo = s.lifo ∧ next.total = s.total + (fin - start) ∧
      next.fresh = s.fresh + 1 ∧ next.rcvNxt = reached s.rcvNxt m.startseq m.endseq ∧
      m.id = p.id ∧ m.startseq = p.startseq ∧ m.endseq = fin ∧ m.pflags = p.pflags ||| tiflags := by
  have before : s.fifo.take i = low ++ [p] := by
    rw [parts, place, List.append_cons]
    exact List.take_left' (by simp)
  have after : s.fifo.drop i = high := by
    rw [parts, place, List.append_cons]
    exact List.drop_left' (by simp)
  simp only [endfast, ↓reduceIte, before, after, coalesce, List.getLast?_concat, List.dropLast_concat]
  cases high with
  | nil =>
    refine ⟨_, _, { p with endseq := fin, pflags := p.pflags ||| tiflags, cnt := p.cnt + initcnt },
      if_pos adjoins, rfl, ?_, rfl, rfl, rfl, rfl, rfl, rfl, rfl⟩
    simp [advance]
  | cons q rest =>
    have apart := free q List.mem_cons_self
    simp only
    rw [if_neg (fun both => apart both.2.symm), if_pos adjoins]
    refine ⟨_, _, { p with endseq := fin, pflags := p.pflags ||| tiflags, cnt := p.cnt + initcnt },
      rfl, rfl, ?_, rfl, rfl, rfl, rfl, rfl, rfl, rfl⟩
    simp [advance]

theorem endfast_joinNext {q : SegInfo} (parts : s.fifo = low ++ q :: high) (place : i = low.length)
    (adjoins : q.startseq = fin) (free : ∀ p ∈ low, p.endseq ≠ start) (tiflags : TcpFlag) (rqflags : BitVec 32)
    (initcnt : ℤ) :
    ∃ next flags m, s.endfast i i start fin tiflags rqflags initcnt true = some (next, flags) ∧
      next.fifo = low ++ m :: high ∧ next.lifo = s.lifo ∧ next.total = s.total + (fin - start) ∧
      next.fresh = s.fresh + 1 ∧ next.rcvNxt = reached s.rcvNxt m.startseq m.endseq ∧
      m.id = q.id ∧ m.startseq = start ∧ m.endseq = q.endseq ∧ m.pflags = q.pflags ||| tiflags := by
  have before : s.fifo.take i = low := by simp [parts, place]
  have after : s.fifo.drop i = q :: high := by simp [parts, place]
  simp only [endfast, ↓reduceIte, before, after, coalesce]
  cases last : low.getLast? with
  | none =>
    refine ⟨_, _, { q with startseq := start, pflags := q.pflags ||| tiflags, cnt := q.cnt + initcnt },
      if_pos adjoins.symm, rfl, ?_, rfl, rfl, rfl, rfl, rfl, rfl, rfl⟩
    simp [advance]
  | some p =>
    have apart := free p (List.mem_of_getLast? last)
    simp only
    rw [if_neg (fun both => apart both.1), if_neg apart, if_pos adjoins.symm]
    refine ⟨_, _, { q with startseq := start, pflags := q.pflags ||| tiflags, cnt := q.cnt + initcnt },
      rfl, rfl, ?_, rfl, rfl, rfl, rfl, rfl, rfl, rfl⟩
    simp [advance]

theorem endfast_fillHole {p q : SegInfo} (parts : s.fifo = low ++ p :: q :: high) (place : i = low.length + 1)
    (adjoins : p.endseq = start) (adjoins' : q.startseq = fin) (tiflags : TcpFlag) (rqflags : BitVec 32)
    (initcnt : ℤ) :
    ∃ next flags m, s.endfast i i start fin tiflags rqflags initcnt true = some (next, flags) ∧
      next.fifo = low ++ m :: high ∧ next.lifo = s.lifo.erase q.id ∧ next.total = s.total + (fin - start) ∧
      next.fresh = s.fresh + 1 ∧ next.rcvNxt = reached s.rcvNxt m.startseq m.endseq ∧
      m.id = p.id ∧ m.startseq = p.startseq ∧ m.endseq = q.endseq ∧ m.pflags = p.pflags ||| tiflags := by
  have before : s.fifo.take i = low ++ [p] := by
    rw [parts, place, List.append_cons]
    exact List.take_left' (by simp)
  have after : s.fifo.drop i = q :: high := by
    rw [parts, place, List.append_cons]
    exact List.drop_left' (by simp)
  simp only [endfast, ↓reduceIte, before, after, coalesce, List.getLast?_concat, List.dropLast_concat]
  rw [if_pos ⟨adjoins, adjoins'.symm⟩]
  refine ⟨_, _, { p with
    endseq := q.endseq, pflags := p.pflags ||| tiflags, cnt := p.cnt + (initcnt + q.cnt) },
    rfl, rfl, ?_, rfl, rfl, rfl, rfl, rfl, rfl, rfl⟩
  simp [advance]

end Endfast

section Between

variable {s : ReassemblyQueue} {start fin : ℤ} {low high : List SegInfo}

theorem low_cases (separated : Separated SegInfo.startseq SegInfo.endseq low) (below : ∀ b ∈ low, b.endseq ≤ start) :
    (∃ before p, low = before ++ [p] ∧ p.endseq = start ∧ ∀ b ∈ before, b.endseq < start) ∨
      ∀ b ∈ low, b.endseq < start := by
  rcases List.eq_nil_or_concat low with rfl | ⟨before, p, rfl⟩
  · exact Or.inr fun b member => absurd member List.not_mem_nil
  · rw [List.concat_eq_append] at *
    have last := below p (by simp)
    have proper := separated.nonempty p (by simp)
    have earlier : ∀ b ∈ before, b.endseq < start := by
      intro b member
      have apart := (List.pairwise_append.mp separated.apart).2.2 b member p (List.mem_singleton_self p)
      omega
    by_cases adjoins : p.endseq = start
    · exact Or.inl ⟨before, p, rfl, adjoins, earlier⟩
    · refine Or.inr fun b member => ?_
      rcases List.mem_append.mp member with old | new
      · exact earlier b old
      · rw [List.mem_singleton.mp new]
        omega

theorem high_cases (separated : Separated SegInfo.startseq SegInfo.endseq high) (above : ∀ b ∈ high, fin ≤ b.startseq) :
    (∃ q after, high = q :: after ∧ q.startseq = fin ∧ ∀ b ∈ after, fin < b.startseq) ∨
      ∀ b ∈ high, fin < b.startseq := by
  cases high with
  | nil => exact Or.inr fun b member => absurd member List.not_mem_nil
  | cons q after =>
    have first := above q List.mem_cons_self
    have proper := separated.nonempty q List.mem_cons_self
    have later : ∀ b ∈ after, fin < b.startseq := by
      intro b member
      have apart := (List.pairwise_cons.mp separated.apart).1 b member
      omega
    by_cases adjoins : q.startseq = fin
    · exact Or.inl ⟨q, after, rfl, adjoins, later⟩
    · exact Or.inr (List.forall_mem_cons.mpr ⟨by omega, later⟩)

/-- A segment that lies between two neighbours, whether it adjoins them or not. -/
theorem Valid.endfast_merged (valid : s.Valid) (nonempty : start < fin) (parts : s.fifo = low ++ high)
    (below : ∀ b ∈ low, b.endseq ≤ start) (above : ∀ b ∈ high, fin ≤ b.startseq) (tiflags : TcpFlag)
    (rqflags : BitVec 32) (initcnt : ℤ) {needmerge : Bool}
    (merge : needmerge = true ↔ (∃ p ∈ low.getLast?, p.endseq = start) ∨ ∃ q ∈ high.head?, q.startseq = fin) :
    ∃ next flags m, s.endfast low.length low.length start fin tiflags rqflags initcnt needmerge =
      some (next, flags) ∧ Merged s start fin tiflags next m := by
  have separated := valid.separated
  rw [parts] at separated
  have noCross : ¬EndsAtHead s.fifo start fin := by
    intro ends
    obtain ⟨b, member, meets, meets', _⟩ := ends.crossing
    rw [parts] at member
    rcases List.mem_append.mp member with early | late
    · exact absurd (below b early) (not_le.mpr meets)
    · exact absurd (above b late) (not_le.mpr meets')
  rcases low_cases (separated.sublist (List.sublist_append_left low high)) below with
    ⟨before, p, rfl, adjoins, earlier⟩ | apart <;>
    rcases high_cases (separated.sublist (List.sublist_append_right _ high)) above with
      ⟨q, after, rfl, adjoins', later⟩ | apart'
  · have properP := separated.nonempty p (by simp)
    have properQ := separated.nonempty q (by simp)
    rw [List.append_assoc, List.singleton_append] at parts
    obtain ⟨next, flags, m, ran, fifo, lifo, total, fresh, nxt, node, left, right, bits⟩ :=
      endfast_fillHole parts (i := (before ++ [p]).length) (by simp) adjoins adjoins' tiflags rqflags initcnt
    refine ⟨next, flags, m, ?_, ?_⟩
    · rw [merge.mpr (Or.inl ⟨p, by simp, adjoins⟩), ran]
    · exact valid.merged_two nonempty parts earlier later (by omega) adjoins.ge adjoins'.le (by omega)
        ⟨node, left, right⟩ (fun i => by simp [bits, or_comm]) fifo lifo (by omega) (by omega) nxt
  · have properP := separated.nonempty p (by simp)
    rw [List.append_assoc, List.singleton_append] at parts
    obtain ⟨next, flags, m, ran, fifo, lifo, total, fresh, nxt, node, left, right, bits⟩ :=
      endfast_joinPrev parts (i := (before ++ [p]).length) (by simp) adjoins (fun q member => (apart' q member).ne')
        tiflags rqflags initcnt
    refine ⟨next, flags, m, ?_, ?_⟩
    · rw [merge.mpr (Or.inl ⟨p, by simp, adjoins⟩), ran]
    · exact valid.merged_one nonempty parts earlier apart' adjoins.ge (by omega) (by omega)
        ⟨node, by omega, by omega⟩ (fun i => by simp [bits, or_comm]) fifo lifo (by omega) (by omega)
        (Or.inr ⟨noCross, nxt⟩)
  · have properQ := separated.nonempty q (by simp)
    obtain ⟨next, flags, m, ran, fifo, lifo, total, fresh, nxt, node, left, right, bits⟩ :=
      endfast_joinNext parts rfl adjoins' (fun p member => (apart p member).ne) tiflags rqflags initcnt
    refine ⟨next, flags, m, ?_, ?_⟩
    · rw [merge.mpr (Or.inr ⟨q, by simp, adjoins'⟩), ran]
    · exact valid.merged_one nonempty parts apart later (by omega) adjoins'.le (by omega)
        ⟨node, by omega, by omega⟩ (fun i => by simp [bits, or_comm]) fifo lifo (by omega) (by omega)
        (Or.inr ⟨noCross, nxt⟩)
  · obtain ⟨next, n, ran, fifo, lifo, total, fresh, nxt, new⟩ :=
      endfast_alone parts rfl start fin tiflags rqflags initcnt
    have alone : needmerge = false := by
      rw [← Bool.not_eq_true, merge]
      rintro (⟨p, member, same⟩ | ⟨q, member, same⟩)
      · exact absurd same (apart p (List.mem_of_getLast? member)).ne
      · exact absurd same (apart' q (List.mem_of_head? member)).ne'
    refine ⟨next, tiflags, n, ?_, ?_⟩
    · rw [alone, ran]
    · exact valid.merged_new nonempty parts apart apart' new fifo lifo total fresh nxt

/-- Nothing crosses the segment's borders: it lies between two neighbours. -/
theorem Valid.mergeSides_between (valid : s.Valid) (nonempty : start < fin) (parts : s.fifo = low ++ high)
    (below : ∀ b ∈ low, b.endseq ≤ start) (above : ∀ b ∈ high, fin ≤ b.startseq) (hasLow : low ≠ [])
    (hasHigh : high ≠ []) (tiflags : TcpFlag) (rqflags : BitVec 32) (initcnt : ℤ) :
    ∃ next flags m, s.mergeSides low.length low.length start fin tiflags rqflags initcnt = some (next, flags) ∧
      Merged s start fin tiflags next m := by
  obtain ⟨before, p, rfl⟩ := (List.eq_nil_or_concat low).resolve_left hasLow
  obtain ⟨q, after, rfl⟩ := List.exists_cons_of_ne_nil hasHigh
  rw [List.concat_eq_append] at *
  have underP := below p (by simp)
  have overQ := above q (by simp)
  have atQ : s.fifo[(before ++ [p]).length]? = some q := by simp [parts]
  have atP : s.fifo[(before ++ [p]).length - 1]? = some p := by simp [parts]
  have notFirst : ¬(before ++ [p]).length = 0 := by simp
  have notLast : ¬(before ++ [p]).length = s.fifo.length := by simp [parts]
  simp only [mergeSides, atQ, atP, notFirst, notLast, Option.bind_eq_bind, Option.bind_some,
    decide_false, Bool.false_or, decide_eq_false (show ¬q.startseq < start by omega),
    decide_eq_false (show ¬p.endseq > fin by omega), Bool.false_eq_true, ↓reduceIte, if_neg (not_le.mpr nonempty)]
  refine valid.endfast_merged nonempty parts below above tiflags rqflags initcnt ?_
  simp only [fits, atP, atQ]
  simp [underP, overQ]

variable {x y : SegInfo}

/-- `p` after the left-side merge. -/
def leftMerged (p : SegInfo) (start : ℤ) (tiflags : TcpFlag) : SegInfo :=
  { p with
    startseq := if start < p.startseq then start else p.startseq
    pflags := p.pflags ||| tiflags
    cnt := p.cnt + 1 }

/-- `q` after the right-side merge. -/
def rightMerged (q : SegInfo) (fin : ℤ) (tiflags : TcpFlag) : SegInfo :=
  { q with
    endseq := if fin > q.endseq then fin else q.endseq
    pflags := q.pflags ||| tiflags }

theorem mergeLeft_fifo (parts : s.fifo = low ++ x :: high) (start : ℤ) (tiflags : TcpFlag) :
    (s.mergeLeft low.length x start tiflags).fifo = low ++ leftMerged x start tiflags :: high := by
  simp [mergeLeft, parts, leftMerged]

theorem mergeRight_fifo (parts : s.fifo = low ++ x :: high) (fin : ℤ) (tiflags : TcpFlag) :
    (s.mergeRight low.length x fin tiflags).fifo = low ++ rightMerged x fin tiflags :: high := by
  simp [mergeRight, parts, rightMerged]

/-- With one crossing block, `add` returns early unless the segment hangs over it on the
side of a neighbour. -/
theorem Valid.endsAtHead_iff (valid : s.Valid) (nonempty : start < fin) (parts : s.fifo = low ++ x :: high) (below : ∀ b ∈ low, b.endseq ≤ start)
    (above : ∀ b ∈ high, fin ≤ b.startseq) (crosses : Crosses start fin x) :
    EndsAtHead s.fifo start fin ↔ x.startseq ≤ start ∧ fin ≤ x.endseq ∨ (x.startseq < start ∧ high = []) ∨
      fin < x.endseq ∧ low = [] := by
  have inside : x ∈ s.fifo := by simp [parts]
  have only : ∀ b ∈ s.fifo, Crosses start fin b → b = x := by
    intro b member ⟨meets, meets', _⟩
    rw [parts] at member
    rcases List.mem_append.mp member with early | late
    · exact absurd (below b early) (not_le.mpr meets)
    · exact (List.mem_cons.mp late).resolve_right fun later => absurd (above b later) (not_le.mpr meets')
  have last : (∀ b ∈ s.fifo, b.startseq < fin) ↔ high = [] := by
    refine ⟨fun all => List.eq_nil_iff_forall_not_mem.mpr fun b member => ?_, ?_⟩
    · exact absurd (all b (by simp [parts, member])) (not_lt.mpr (above b member))
    · rintro rfl b member
      have proper := valid.separated.nonempty b member
      rw [parts] at member
      rcases List.mem_append.mp member with early | late
      · have under := below b early
        omega
      · exact List.mem_singleton.mp late ▸ crosses.2.1
  have first : (∀ b ∈ s.fifo, start < b.endseq) ↔ low = [] := by
    refine ⟨fun all => List.eq_nil_iff_forall_not_mem.mpr fun b member => ?_, ?_⟩
    · exact absurd (all b (by simp [parts, member])) (not_lt.mpr (below b member))
    · rintro rfl b member
      have proper := valid.separated.nonempty b member
      rw [parts] at member
      rcases List.mem_cons.mp member with same | late
      · exact same ▸ crosses.1
      · have beyond := above b late
        omega
  constructor
  · rintro ⟨w, member, crossesW, _, found⟩
    obtain rfl := only w member crossesW
    rwa [last, first] at found
  · intro found
    refine ⟨x, inside, crosses, only, ?_⟩
    rwa [last, first]

/-- The early return, once the crossing block has been extended to `m`. -/
theorem Valid.merged_head {t : ReassemblyQueue} {m : SegInfo} {tiflags : TcpFlag} (valid : s.Valid)
    (nonempty : start < fin) (parts : s.fifo = low ++ x :: high) (below : ∀ b ∈ low, b.endseq < start)
    (above : ∀ b ∈ high, fin < b.startseq) (crosses : Crosses start fin x) (atHead : EndsAtHead s.fifo start fin)
    (new : m.id = x.id ∧ m.startseq = min start x.startseq ∧ m.endseq = max fin x.endseq)
    (flags : ∀ i, m.pflags.getLsbD i = true ↔ tiflags.getLsbD i = true ∨ x.pflags.getLsbD i = true)
    (fifo : t.fifo = low ++ m :: high)
    (rest : t.lifo = s.lifo ∧ t.total = s.total + ((m.endseq - m.startseq) - (x.endseq - x.startseq)) ∧
      t.fresh = s.fresh ∧ t.rcvNxt = s.rcvNxt) :
    ∃ next flags m, (do
        let head ← t.fifo.head?
        return (t.advance head.startseq head.endseq, tiflags)) = some (next, flags) ∧
      Merged s start fin tiflags next m := by
  obtain ⟨lifo, total, fresh, nxt⟩ := rest
  obtain ⟨h, first⟩ : ∃ h, t.fifo.head? = some h := by
    rw [fifo]
    cases low <;> exact ⟨_, rfl⟩
  have advanced : (t.advance h.startseq h.endseq).rcvNxt = reached s.rcvNxt h.startseq h.endseq := by
    rw [← nxt]
    rfl
  rw [first]
  refine ⟨_, _, m, rfl, valid.merged_one nonempty parts below above crosses.1.le crosses.2.1.le ?_ new flags fifo lifo
    total fresh.ge (Or.inl ⟨atHead, h, first, advanced⟩)⟩
  exact fun same => crosses.2.2 ⟨same.1.ge, same.2.le⟩

/-- One block crosses the segment's borders and the segment does not reach beyond it on
the side of a neighbour: `add` returns early, with the block extended. -/
theorem Valid.mergeSides_head (valid : s.Valid) (nonempty : start < fin) (parts : s.fifo = low ++ x :: high)
    (below : ∀ b ∈ low, b.endseq ≤ start) (above : ∀ b ∈ high, fin ≤ b.startseq) (crosses : Crosses start fin x)
    (ends : x.startseq ≤ start ∧ fin ≤ x.endseq ∨ (x.startseq < start ∧ high = []) ∨ fin < x.endseq ∧ low = [])
    (tiflags : TcpFlag) (rqflags : BitVec 32) (initcnt : ℤ) :
    ∃ next flags m, s.mergeSides low.length (low.length + 1) start fin tiflags rqflags initcnt = some (next, flags) ∧
      Merged s start fin tiflags next m := by
  have separated := valid.separated
  rw [parts] at separated
  have properX := separated.nonempty x (by simp)
  obtain ⟨meets, meets', outside⟩ := id crosses
  have atHead := (valid.endsAtHead_iff nonempty parts below above crosses).mpr ends
  have under : ∀ b ∈ low, b.endseq < start := by
    intro b member
    have apart := (List.pairwise_append.mp separated.apart).2.2 b member x List.mem_cons_self
    rcases ends with inside | early | late
    · omega
    · omega
    · exact absurd (late.2 ▸ member) List.not_mem_nil
  have beyond : ∀ b ∈ high, fin < b.startseq := by
    intro b member
    have apart := (List.pairwise_cons.mp (List.pairwise_append.mp separated.apart).2.1).1 b member
    rcases ends with inside | early | late
    · omega
    · exact absurd (early.2 ▸ member) List.not_mem_nil
    · omega
  have atX : s.fifo[low.length]? = some x := by simp [parts]
  have length : s.fifo.length = low.length + 1 + high.length := by simp [parts]; omega
  by_cases left : low.length = 0 ∨ x.startseq < start
  · have leftTrue : (decide (low.length = 0) || decide (x.startseq < start)) = true := by
      rw [← Bool.decide_or]
      exact decide_eq_true left
    have fifo := mergeLeft_fifo parts start tiflags
    have atLeft : (s.mergeLeft low.length x start tiflags).fifo[low.length]? = some (leftMerged x start tiflags) := by
      simp [fifo]
    have length' : (s.mergeLeft low.length x start tiflags).fifo.length = low.length + 1 + high.length := by
      simp [fifo]; omega
    simp only [mergeSides, atX, leftTrue, Option.bind_eq_bind, Option.bind_some, ↓reduceIte, Nat.add_one_ne_zero,
      Nat.add_sub_cancel, atLeft, length']
    by_cases right : low.length + 1 = low.length + 1 + high.length ∨ x.endseq > fin
    · have rightTrue : (decide (low.length + 1 = low.length + 1 + high.length) ||
          decide ((leftMerged x start tiflags).endseq > fin)) = true := by
        rw [← Bool.decide_or]
        exact decide_eq_true right
      have shut : (leftMerged x start tiflags).startseq ≤ x.endseq := by
        simp only [leftMerged]
        split_ifs <;> omega
      simp only [rightTrue, ↓reduceIte, if_pos shut]
      refine valid.merged_head (m := rightMerged (leftMerged x start tiflags) fin tiflags) nonempty parts under beyond
        crosses atHead ⟨rfl, ?_, ?_⟩ ?_ (mergeRight_fifo fifo fin tiflags) ⟨rfl, ?_, rfl, rfl⟩
      · simp only [rightMerged, leftMerged]
        split_ifs <;> omega
      · simp only [rightMerged, leftMerged]
        split_ifs <;> omega
      · intro i
        simp [rightMerged, leftMerged, or_comm]
      · simp only [mergeRight, mergeLeft, rightMerged, leftMerged]
        split_ifs <;> omega
    · have rightFalse : (decide (low.length + 1 = low.length + 1 + high.length) ||
          decide ((leftMerged x start tiflags).endseq > fin)) = false := by
        rw [← Bool.decide_or]
        exact decide_eq_false right
      have bare : high ≠ [] := fun none => right (Or.inl (by rw [none]; rfl))
      have same : fin = x.endseq := by
        rcases ends with inside | early | late
        · omega
        · exact absurd early.2 bare
        · omega
      simp only [rightFalse, Bool.false_eq_true, ↓reduceIte, if_pos same.le]
      refine valid.merged_head (m := leftMerged x start tiflags) nonempty parts under beyond crosses atHead
        ⟨rfl, ?_, ?_⟩ ?_ fifo ⟨rfl, ?_, rfl, rfl⟩
      · simp only [leftMerged]
        split_ifs <;> omega
      · simp only [leftMerged]
        omega
      · intro i
        simp [leftMerged, or_comm]
      · simp only [mergeLeft, leftMerged]
        split_ifs <;> omega
  · have leftFalse : (decide (low.length = 0) || decide (x.startseq < start)) = false := by
      rw [← Bool.decide_or]
      exact decide_eq_false left
    have bare : low ≠ [] := fun none => left (Or.inl (by rw [none]; rfl))
    have same : x.startseq = start := by
      rcases ends with inside | early | late
      · omega
      · omega
      · exact absurd late.2 bare
    have rightTrue : (decide (low.length + 1 = low.length + 1 + high.length) || decide (x.endseq > fin)) = true := by
      rw [decide_eq_true (show x.endseq > fin by omega), Bool.or_true]
    simp only [mergeSides, atX, leftFalse, Option.bind_eq_bind, Option.bind_some, ↓reduceIte, Nat.add_one_ne_zero,
      Nat.add_sub_cancel, Bool.false_eq_true, length, rightTrue, if_pos same.le]
    refine valid.merged_head (m := rightMerged x fin tiflags) nonempty parts under beyond crosses atHead
      ⟨rfl, ?_, ?_⟩ ?_ (mergeRight_fifo parts fin tiflags) ⟨rfl, ?_, rfl, rfl⟩
    · simp only [rightMerged]
      omega
    · simp only [rightMerged]
      split_ifs <;> omega
    · intro i
      simp [rightMerged, or_comm]
    · simp only [mergeRight, rightMerged]
      split_ifs <;> omega

/-- The segment hangs over the end of one block, and there are blocks above it. -/
theorem Valid.mergeSides_above (valid : s.Valid) (nonempty : start < fin) (parts : s.fifo = low ++ x :: high)
    (below : ∀ b ∈ low, b.endseq ≤ start) (above : ∀ b ∈ high, fin ≤ b.startseq) (left : x.startseq < start)
    (meets : start < x.endseq) (right : x.endseq < fin) (hasHigh : high ≠ []) (tiflags : TcpFlag)
    (rqflags : BitVec 32) (initcnt : ℤ) :
    ∃ next flags m, s.mergeSides low.length (low.length + 1) start fin tiflags rqflags initcnt = some (next, flags) ∧
      Merged s start fin tiflags next m := by
  have separated := valid.separated
  rw [parts] at separated
  have under : ∀ b ∈ low, b.endseq < start := fun b member =>
    ((List.pairwise_append.mp separated.apart).2.2 b member x List.mem_cons_self).trans left
  have separatedHigh := separated.sublist ((List.sublist_cons_self x high).trans (List.sublist_append_right low _))
  have notAtHead : ¬EndsAtHead s.fifo start fin := by
    rw [valid.endsAtHead_iff nonempty parts below above ⟨meets, by omega, by omega⟩]
    rintro (inside | early | late)
    · omega
    · exact hasHigh early.2
    · omega
  have atX : s.fifo[low.length]? = some x := by simp [parts]
  have fifo := mergeLeft_fifo parts start tiflags
  have atLeft : (s.mergeLeft low.length x start tiflags).fifo[low.length]? = some (leftMerged x start tiflags) := by
    simp [fifo]
  have notLast : ¬low.length + 1 = (s.mergeLeft low.length x start tiflags).fifo.length := by
    simpa [fifo] using fun none => hasHigh none
  have sameStart : (leftMerged x start tiflags).startseq = x.startseq := if_neg (by omega)
  have sameEnd : (leftMerged x start tiflags).endseq = x.endseq := rfl
  have sameTotal : (s.mergeLeft low.length x start tiflags).total = s.total := if_neg (by omega)
  have inside : ¬(leftMerged x start tiflags).endseq > fin := by omega
  simp only [mergeSides, atX, decide_eq_true left, Bool.or_true, Option.bind_eq_bind, Option.bind_some, ↓reduceIte,
    Nat.add_one_ne_zero, Nat.add_sub_cancel, atLeft, decide_eq_false notLast, decide_eq_false inside, Bool.or_self,
    Bool.false_eq_true, if_neg (not_le.mpr right), Bool.true_or]
  rcases high_cases separatedHigh above with ⟨q, after, rfl, adjoins, later⟩ | apart
  · have properQ := separatedHigh.nonempty q List.mem_cons_self
    obtain ⟨next, flags, m, ran, fifo', lifo, total, fresh, nxt, node, first, last, bits⟩ :=
      endfast_fillHole fifo rfl (p := leftMerged x start tiflags) rfl adjoins tiflags rqflags (initcnt - 1)
    refine ⟨next, flags, m, ran, valid.merged_two nonempty parts under later left meets.le adjoins.le (by omega)
      ⟨node, first.trans sameStart, last⟩ (fun i => ?_) fifo' lifo (by omega) ?_ nxt⟩
    · simp [bits, leftMerged, or_comm]
    · rw [fresh]
      exact Nat.le_succ s.fresh
  · obtain ⟨next, flags, m, ran, fifo', lifo, total, fresh, nxt, node, first, last, bits⟩ :=
      endfast_joinPrev fifo rfl (p := leftMerged x start tiflags) rfl (fun q member => (apart q member).ne') tiflags
        rqflags (initcnt - 1)
    refine ⟨next, flags, m, ran, valid.merged_one nonempty parts under apart meets.le (by omega) (by omega)
      ⟨node, by omega, by omega⟩ (fun i => ?_) fifo' lifo (by omega) ?_ (Or.inr ⟨notAtHead, nxt⟩)⟩
    · simp [bits, leftMerged, or_comm]
    · rw [fresh]
      exact Nat.le_succ s.fresh

/-- The segment hangs over the start of one block, and there are blocks below it. -/
theorem Valid.mergeSides_below (valid : s.Valid) (nonempty : start < fin) (parts : s.fifo = low ++ x :: high)
    (below : ∀ b ∈ low, b.endseq ≤ start) (above : ∀ b ∈ high, fin ≤ b.startseq) (left : start < x.startseq)
    (meets : x.startseq < fin) (right : fin < x.endseq) (hasLow : low ≠ []) (tiflags : TcpFlag)
    (rqflags : BitVec 32) (initcnt : ℤ) :
    ∃ next flags m, s.mergeSides low.length (low.length + 1) start fin tiflags rqflags initcnt = some (next, flags) ∧
      Merged s start fin tiflags next m := by
  have separated := valid.separated
  rw [parts] at separated
  have beyond : ∀ b ∈ high, fin < b.startseq := fun b member =>
    right.trans ((List.pairwise_cons.mp (List.pairwise_append.mp separated.apart).2.1).1 b member)
  have separatedLow := separated.sublist (List.sublist_append_left low (x :: high))
  have notAtHead : ¬EndsAtHead s.fifo start fin := by
    rw [valid.endsAtHead_iff nonempty parts below above ⟨by omega, by omega, by omega⟩]
    rintro (inside | early | late)
    · omega
    · omega
    · exact hasLow late.2
  have atX : s.fifo[low.length]? = some x := by simp [parts]
  have fifo := mergeRight_fifo parts fin tiflags
  have notFirst : ¬low.length = 0 := by simpa using hasLow
  have sameEnd : (rightMerged x fin tiflags).endseq = x.endseq := if_neg (by omega)
  have sameStart : (rightMerged x fin tiflags).startseq = x.startseq := rfl
  have sameTotal : (s.mergeRight low.length x fin tiflags).total = s.total := if_neg (by omega)
  simp only [mergeSides, atX, decide_eq_false notFirst, decide_eq_false (not_lt.mpr left.le), Bool.or_self,
    Option.bind_eq_bind, Option.bind_some, Bool.false_eq_true, ↓reduceIte, Nat.add_one_ne_zero, Nat.add_sub_cancel,
    decide_eq_true (show x.endseq > fin from right), Bool.or_true, if_neg (not_le.mpr left), Bool.true_or]
  rcases low_cases separatedLow below with ⟨before, p, rfl, adjoins, earlier⟩ | apart
  · have properP := separatedLow.nonempty p (by simp)
    rw [List.append_assoc, List.singleton_append] at parts
    rw [List.append_assoc, List.singleton_append] at fifo
    obtain ⟨next, flags, m, ran, fifo', lifo, total, fresh, nxt, node, first, last, bits⟩ :=
      endfast_fillHole fifo (i := (before ++ [p]).length) (by simp) adjoins (q := rightMerged x fin tiflags) rfl tiflags
        rqflags initcnt
    refine ⟨next, flags, m, ran, valid.merged_two nonempty parts earlier beyond (by omega) adjoins.ge meets.le right
      ⟨node, first, last.trans sameEnd⟩ (fun i => ?_) fifo' lifo (by omega) ?_ nxt⟩
    · simp [bits, or_comm]
    · rw [fresh]
      exact Nat.le_succ s.fresh
  · obtain ⟨next, flags, m, ran, fifo', lifo, total, fresh, nxt, node, first, last, bits⟩ :=
      endfast_joinNext fifo rfl (q := rightMerged x fin tiflags) rfl (fun p member => (apart p member).ne) tiflags
        rqflags initcnt
    refine ⟨next, flags, m, ran, valid.merged_one nonempty parts apart beyond (by omega) meets.le (by omega)
      ⟨node, by omega, by omega⟩ (fun i => ?_) fifo' lifo (by omega) ?_ (Or.inr ⟨notAtHead, nxt⟩)⟩
    · simp [bits, rightMerged, or_comm]
    · rw [fresh]
      exact Nat.le_succ s.fresh

/-- Two blocks cross the segment's borders, and it closes the hole between them. -/
theorem Valid.mergeSides_two (valid : s.Valid) (nonempty : start < fin) (parts : s.fifo = low ++ x :: y :: high)
    (left : x.startseq < start) (meets : start < x.endseq) (apart : x.endseq < y.startseq) (meets' : y.startseq < fin)
    (right : fin < y.endseq) (tiflags : TcpFlag) (rqflags : BitVec 32) (initcnt : ℤ) :
    ∃ next flags m, s.mergeSides low.length (low.length + 2) start fin tiflags rqflags initcnt = some (next, flags) ∧
      Merged s start fin tiflags next m := by
  have separated := valid.separated
  rw [parts] at separated
  have under : ∀ b ∈ low, b.endseq < start := fun b member =>
    ((List.pairwise_append.mp separated.apart).2.2 b member x List.mem_cons_self).trans left
  have beyond : ∀ b ∈ high, fin < b.startseq := fun b member =>
    right.trans ((List.pairwise_cons.mp
      (List.pairwise_cons.mp (List.pairwise_append.mp separated.apart).2.1).2).1 b member)
  have atX : s.fifo[low.length]? = some x := by simp [parts]
  have fifo := mergeLeft_fifo parts start tiflags
  rw [List.append_cons] at fifo
  have place : low.length + 1 = (low ++ [leftMerged x start tiflags]).length := by simp
  have atY : (s.mergeLeft low.length x start tiflags).fifo[low.length + 1]? = some y := by
    rw [place]
    simp [fifo]
  have fifo' := mergeRight_fifo fifo fin tiflags
  rw [← place, ← List.append_cons] at fifo'
  have sameStart : (leftMerged x start tiflags).startseq = x.startseq := if_neg (by omega)
  have sameEnd : (rightMerged y fin tiflags).endseq = y.endseq := if_neg (by omega)
  have adjoins : (leftMerged x start tiflags).endseq = x.endseq := rfl
  have adjoins' : (rightMerged y fin tiflags).startseq = y.startseq := rfl
  have sameTotal : ((s.mergeLeft low.length x start tiflags).mergeRight (low.length + 1) y fin tiflags).total =
      s.total := by
    simp only [mergeRight, mergeLeft]
    rw [if_neg (by omega), if_neg (by omega)]
  have prev : low.length + 2 - 1 = low.length + 1 := rfl
  have positive : ¬low.length + 2 = 0 := by omega
  simp only [mergeSides, atX, decide_eq_true left, Bool.or_true, Option.bind_eq_bind, Option.bind_some, ↓reduceIte,
    if_neg positive, prev, atY, decide_eq_true (show y.endseq > fin from right), if_neg (not_le.mpr apart), Bool.true_or]
  obtain ⟨next, flags, m, ran, ends, lifo, total, fresh, nxt, node, first, last, bits⟩ :=
    endfast_fillHole fifo' rfl adjoins adjoins' tiflags rqflags (initcnt - 1)
  refine ⟨next, flags, m, ran, valid.merged_two nonempty parts under beyond left meets.le meets'.le right
    ⟨node, first.trans sameStart, last.trans sameEnd⟩ (fun i => ?_) ends lifo (by omega) ?_ nxt⟩
  · simp [bits, leftMerged, or_comm]
  · rw [fresh]
    exact Nat.le_succ s.fresh

/-- Every way in which a segment can lie that overlaps no block completely. -/
theorem Valid.mergeSides_merged {mid : List SegInfo} (valid : s.Valid) (nonempty : start < fin)
    (parts : s.fifo = low ++ mid ++ high) (below : ∀ b ∈ low, b.endseq ≤ start)
    (meets : ∀ b ∈ mid, start < b.endseq ∧ b.startseq < fin) (above : ∀ b ∈ high, fin ≤ b.startseq)
    (outside : ∀ b ∈ mid, ¬(start ≤ b.startseq ∧ b.endseq ≤ fin)) (inner : mid = [] → low ≠ [] ∧ high ≠ [])
    (tiflags : TcpFlag) (rqflags : BitVec 32) (initcnt : ℤ) :
    ∃ next flags m, s.mergeSides low.length (low.length + mid.length) start fin tiflags rqflags initcnt =
      some (next, flags) ∧ Merged s start fin tiflags next m := by
  have separated := valid.separated
  rw [parts] at separated
  have separatedMid := (separated.sublist (List.sublist_append_left _ high)).sublist (List.sublist_append_right low mid)
  rcases separatedMid.meeting_cases meets outside with rfl | ⟨x, rfl⟩ | ⟨x, y, rfl, left, apart, right⟩
  · obtain ⟨hasLow, hasHigh⟩ := inner rfl
    rw [List.append_nil] at parts
    exact valid.mergeSides_between nonempty parts below above hasLow hasHigh tiflags rqflags initcnt
  · rw [List.append_assoc, List.singleton_append] at parts
    obtain ⟨meetsX, meetsX'⟩ := meets x (List.mem_singleton_self x)
    have outsideX := outside x (List.mem_singleton_self x)
    by_cases ends : x.startseq ≤ start ∧ fin ≤ x.endseq ∨ (x.startseq < start ∧ high = []) ∨ fin < x.endseq ∧ low = []
    · exact valid.mergeSides_head nonempty parts below above ⟨meetsX, meetsX', outsideX⟩ ends tiflags rqflags initcnt
    · by_cases left : x.startseq < start
      · have right : x.endseq < fin := by
          by_contra reaches
          exact ends (Or.inl ⟨left.le, not_lt.mp reaches⟩)
        have hasHigh : high ≠ [] := fun none => ends (Or.inr (Or.inl ⟨left, none⟩))
        exact valid.mergeSides_above nonempty parts below above left meetsX right hasHigh tiflags rqflags initcnt
      · have right : fin < x.endseq := by omega
        have apart : start < x.startseq := by
          by_contra reaches
          exact ends (Or.inl ⟨not_lt.mp reaches, right.le⟩)
        have hasLow : low ≠ [] := fun none => ends (Or.inr (Or.inr ⟨right, none⟩))
        exact valid.mergeSides_below nonempty parts below above apart meetsX' right hasLow tiflags rqflags initcnt
  · rw [List.append_assoc] at parts
    exact valid.mergeSides_two nonempty parts left (meets x (by simp)).1 apart (meets y (by simp)).2 right tiflags
      rqflags initcnt

end Between

end Ns2.ReassemblyQueue
