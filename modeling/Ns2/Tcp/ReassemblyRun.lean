import Ns2.Tcp.ReassemblyAdd

namespace Ns2.ReassemblyQueue

open Intervals (Separated Absorbs Touches size cover)

structure Segment where
  start : ℤ
  fin : ℤ
  tiflags : TcpFlag
  rqflags : BitVec 32
deriving DecidableEq

inductive Op
  | add (g : Segment)
  | clearto (seq : ℤ)
  | clear
deriving DecidableEq

def step (s : ReassemblyQueue) : Op → Option (ReassemblyQueue × TcpFlag)
  | .add g => s.add g.start g.fin g.tiflags g.rqflags
  | .clearto seq => some (s.clearto seq)
  | .clear => some (s.clear, 0)

def machine : Machine ReassemblyQueue Op TcpFlag := ⟨step⟩

def Op.Proper : Op → Prop
  | .add g => g.start < g.fin
  | _ => True

/-- What an operation makes of the set of sequence numbers that are covered. -/
def Op.covered (old : Set ℤ) : Op → Set ℤ
  | .add g => old ∪ Set.Ico g.start g.fin
  | .clearto seq => old \ Set.Iio seq
  | .clear => ∅

section Clearto

variable {s : ReassemblyQueue} {seq : ℤ} {l : List SegInfo}

def cutAt (seq : ℤ) (b : SegInfo) : SegInfo := { b with startseq := max seq b.startseq }

/-- The blocks that reach beyond `seq`, from `seq` on. -/
def trimmed (seq : ℤ) (l : List SegInfo) : List SegInfo := (l.filter fun b => seq < b.endseq).map (cutAt seq)

theorem trimmed_cons_below {b : SegInfo} (below : b.endseq ≤ seq) : trimmed seq (b :: l) = trimmed seq l := by
  rw [trimmed, List.filter_cons_of_neg (by simpa using below), trimmed]

theorem trimmed_cons_of_lt {b : SegInfo} (above : seq < b.endseq) :
    trimmed seq (b :: l) = cutAt seq b :: trimmed seq l := by
  rw [trimmed, List.filter_cons_of_pos (by simpa using above), List.map_cons, trimmed]

theorem trimmed_above (proper : ∀ b ∈ l, b.startseq < b.endseq) (above : ∀ b ∈ l, seq < b.startseq) :
    trimmed seq l = l := by
  have kept : l.filter (fun b => seq < b.endseq) = l :=
    List.filter_eq_self.mpr fun b member => by simpa using (above b member).trans (proper b member)
  have same : l.map (cutAt seq) = l.map id := List.map_congr_left fun b member => by
    simp only [cutAt, max_eq_right (above b member).le, id_eq]
  rw [trimmed, kept, same, List.map_id]

/-- What `clearto` does to the state, and the flags it returns. -/
structure Cleared (seq : ℤ) (l : List SegInfo) (s : ReassemblyQueue) (flag : TcpFlag)
    (result : ReassemblyQueue × TcpFlag) : Prop where
  fifo : result.1.fifo = trimmed seq l
  linked : s.lifo.Perm (l.map SegInfo.id) → result.1.lifo.Perm (result.1.fifo.map SegInfo.id)
  total : result.1.total - size SegInfo.startseq SegInfo.endseq result.1.fifo =
    s.total - size SegInfo.startseq SegInfo.endseq l
  fresh : result.1.fresh = s.fresh
  rcvNxt : result.1.rcvNxt = s.rcvNxt
  flags : ∀ i, result.2.getLsbD i = true ↔
    flag.getLsbD i = true ∨ ∃ b ∈ l, b.startseq ≤ seq ∧ b.pflags.getLsbD i = true

theorem cleartoFrom_cleared (separated : Separated SegInfo.startseq SegInfo.endseq l) (s : ReassemblyQueue)
    (flag : TcpFlag) : Cleared seq l s flag (cleartoFrom seq l s flag) := by
  induction l generalizing s flag with
  | nil => exact ⟨rfl, id, rfl, rfl, rfl, by simp [cleartoFrom]⟩
  | cons p rest ih =>
    have proper := separated.nonempty p List.mem_cons_self
    have later := (List.pairwise_cons.mp separated.apart).1
    have remaining := separated.sublist (List.sublist_cons_self p rest)
    rw [cleartoFrom]
    split_ifs with below within
    · have cleared := ih remaining { s with lifo := s.lifo.erase p.id, total := s.total - (p.endseq - p.startseq) }
        (flag ||| p.pflags)
      refine ⟨cleared.fifo.trans (trimmed_cons_below below).symm, fun linked => ?_, ?_, cleared.fresh, cleared.rcvNxt,
        fun i => ?_⟩
      · have erased := linked.erase p.id
        rw [List.map_cons, List.erase_cons_head] at erased
        exact cleared.linked erased
      · rw [cleared.total, Intervals.size_cons]
        exact sub_sub _ _ _
      · rw [cleared.flags, BitVec.getLsbD_or, Bool.or_eq_true, List.exists_mem_cons_iff, or_assoc]
        simp [(proper.trans_le below).le]
    · have kept : trimmed seq rest = rest :=
        trimmed_above remaining.nonempty fun b member => within.2.trans (later b member)
      refine ⟨?_, fun linked => linked, ?_, rfl, rfl, fun i => ?_⟩
      · rw [trimmed_cons_of_lt within.2, kept, cutAt, max_eq_left within.1]
      · simp only [Intervals.size_cons]
        omega
      · have none : ¬∃ b ∈ rest, b.startseq ≤ seq ∧ b.pflags.getLsbD i = true := by
          rintro ⟨b, member, low, _⟩
          exact absurd (within.2.trans (later b member)) (not_lt.mpr low)
        rw [BitVec.getLsbD_or, Bool.or_eq_true, List.exists_mem_cons_iff]
        simp [within.1, none]
    · have above : ∀ b ∈ p :: rest, seq < b.startseq := by
        have first : seq < p.startseq := by omega
        exact List.forall_mem_cons.mpr ⟨first, fun b member => first.trans (proper.trans (later b member))⟩
      refine ⟨(trimmed_above separated.nonempty above).symm, fun linked => linked, rfl, rfl, rfl, fun i => ?_⟩
      have none : ¬∃ b ∈ p :: rest, b.startseq ≤ seq ∧ b.pflags.getLsbD i = true := by
        rintro ⟨b, member, low, _⟩
        exact absurd (above b member) (not_lt.mpr low)
      exact (or_iff_left none).symm

theorem Valid.cleared (valid : s.Valid) (seq : ℤ) : Cleared seq s.fifo s 0 (s.clearto seq) :=
  cleartoFrom_cleared valid.separated s 0

theorem trimmed_separated (separated : Separated SegInfo.startseq SegInfo.endseq l) (seq : ℤ) :
    Separated SegInfo.startseq SegInfo.endseq (trimmed seq l) :=
  Separated.map (separated.cut seq)

theorem trimmed_cover (seq : ℤ) (l : List SegInfo) :
    cover SegInfo.startseq SegInfo.endseq (trimmed seq l) = cover SegInfo.startseq SegInfo.endseq l \ Set.Iio seq := by
  rw [trimmed, Intervals.cover_map]
  exact Intervals.cover_cut seq l

theorem trimmed_ids (seq : ℤ) (l : List SegInfo) :
    (trimmed seq l).map SegInfo.id = (l.filter fun b => seq < b.endseq).map SegInfo.id := by
  rw [trimmed, List.map_map]
  rfl

theorem Valid.clearto_valid (valid : s.Valid) (seq : ℤ) : (s.clearto seq).1.Valid where
  separated := by
    rw [(valid.cleared seq).fifo]
    exact trimmed_separated valid.separated seq
  linked := (valid.cleared seq).linked valid.linked
  distinct := by
    rw [(valid.cleared seq).fifo, trimmed_ids]
    exact valid.distinct.sublist (List.filter_sublist.map SegInfo.id)
  used b member := by
    rw [(valid.cleared seq).fifo, trimmed] at member
    obtain ⟨c, inside, rfl⟩ := List.mem_map.mp member
    rw [(valid.cleared seq).fresh]
    exact valid.used c (List.mem_filter.mp inside).1
  total := by
    have counted := (valid.cleared seq).total
    have whole := valid.total
    omega

end Clearto

/-- Every operation succeeds, keeps the lists in order and changes the covered set as it should. -/
theorem Valid.step_covered {s : ReassemblyQueue} (valid : s.Valid) {op : Op} (proper : op.Proper) :
    ∃ next flags, machine.step s op = some (next, flags) ∧ next.Valid ∧
      cover SegInfo.startseq SegInfo.endseq next.fifo = op.covered (cover SegInfo.startseq SegInfo.endseq s.fifo) := by
  cases op with
  | add g =>
    obtain ⟨next, flags, m, ran, merged⟩ := valid.add_merged proper g.tiflags g.rqflags
    exact ⟨next, flags, ran, merged.valid, merged.absorbs.cover⟩
  | clearto seq =>
    refine ⟨(s.clearto seq).1, (s.clearto seq).2, rfl, valid.clearto_valid seq, ?_⟩
    rw [(valid.cleared seq).fifo, trimmed_cover]
    rfl
  | clear => exact ⟨_, _, rfl, clear_valid s, by simp [clear, cover, Op.covered]⟩

theorem Valid.run_covered {s : ReassemblyQueue} (valid : s.Valid) {ops : List Op} (proper : ∀ op ∈ ops, op.Proper) :
    ∃ last outs, machine.run s ops = some (last, outs) ∧ last.Valid ∧ cover SegInfo.startseq SegInfo.endseq last.fifo =
      ops.foldl Op.covered (cover SegInfo.startseq SegInfo.endseq s.fifo) := by
  induction ops generalizing s with
  | nil => exact ⟨s, [], rfl, valid, rfl⟩
  | cons op ops ih =>
    obtain ⟨next, flags, taken, valid', covers⟩ := valid.step_covered (proper op List.mem_cons_self)
    obtain ⟨last, outs, ran, valid'', covers'⟩ := ih valid' fun o member => proper o (List.mem_cons_of_mem op member)
    refine ⟨last, flags :: outs, by rw [Machine.run_cons taken, ran]; rfl, valid'', ?_⟩
    rw [covers', covers, List.foldl_cons]

theorem queue_covers (rcvnxt : ℤ) (ops : List Op) (proper : ∀ op ∈ ops, op.Proper) :
    ∃ last outs, machine.run (make rcvnxt) ops = some (last, outs) ∧
      Separated SegInfo.startseq SegInfo.endseq last.fifo ∧
      cover SegInfo.startseq SegInfo.endseq last.fifo = ops.foldl Op.covered ∅ ∧
      last.total = (ops.foldl Op.covered ∅).ncard ∧
      last.lifo.Perm (last.fifo.map SegInfo.id) ∧ (last.fifo.map SegInfo.id).Nodup := by
  obtain ⟨last, outs, ran, valid, covers⟩ := (make_valid rcvnxt).run_covered proper
  have bare : cover SegInfo.startseq SegInfo.endseq (make rcvnxt).fifo = ∅ := by simp [make, cover]
  rw [bare] at covers
  refine ⟨last, outs, ran, valid.separated, covers, ?_, valid.linked, valid.distinct⟩
  rw [valid.total, valid.separated.size_eq, covers]

theorem queue_covers_sample : ∃ last outs,
    machine.run (make 0) [.add ⟨1, 3, 0, 0⟩, .add ⟨5, 8, 1, 0⟩, .add ⟨2, 6, 0, 0⟩, .clearto 4] = some (last, outs) ∧
      Separated SegInfo.startseq SegInfo.endseq last.fifo ∧
      cover SegInfo.startseq SegInfo.endseq last.fifo = List.foldl Op.covered ∅
        [.add ⟨1, 3, 0, 0⟩, .add ⟨5, 8, 1, 0⟩, .add ⟨2, 6, 0, 0⟩, .clearto 4] ∧
      last.total = (List.foldl Op.covered ∅
        [.add ⟨1, 3, 0, 0⟩, .add ⟨5, 8, 1, 0⟩, .add ⟨2, 6, 0, 0⟩, .clearto 4]).ncard ∧
      last.lifo.Perm (last.fifo.map SegInfo.id) ∧ (last.fifo.map SegInfo.id).Nodup :=
  queue_covers 0 _ (by simp [Op.Proper])

section Flags

/-- No flag is lost with the upper one of two blocks that the segment joins. -/
def KeepsFlags (s : ReassemblyQueue) : Op → Prop
  | .add g => Bridges s.fifo g.start g.fin →
      ∀ b ∈ s.fifo, Touches SegInfo.startseq SegInfo.endseq g.start g.fin b → ∀ i < 32, b.pflags.getLsbD i = true →
        g.tiflags.getLsbD i = true ∨ ∃ c ∈ s.fifo, Passes s.fifo g.start g.fin c ∧ c.pflags.getLsbD i = true
  | _ => True

instance KeepsFlags.decidable (s : ReassemblyQueue) : ∀ op, Decidable (KeepsFlags s op)
  | .add g => inferInstanceAs (Decidable (Bridges s.fifo g.start g.fin → _))
  | .clearto _ => isTrue trivial
  | .clear => isTrue trivial

/-- The segment lies in the block, so it has been merged into it. -/
def Segment.In (g : Segment) (b : SegInfo) : Prop := b.startseq ≤ g.start ∧ g.fin ≤ b.endseq

/-- Every segment lies in a block, and a block has the flags of the segments in it. -/
structure Flagged (segments : List Segment) (s : ReassemblyQueue) : Prop where
  proper : ∀ g ∈ segments, g.start < g.fin
  placed : ∀ g ∈ segments, ∃ b ∈ s.fifo, g.In b
  flags : ∀ b ∈ s.fifo, ∀ i, b.pflags.getLsbD i = true ↔ ∃ g ∈ segments, g.In b ∧ g.tiflags.getLsbD i = true

variable {s next : ReassemblyQueue} {g : Segment} {m : SegInfo} {segments : List Segment}

/-- With the condition on the step, the merged block takes over the flags of all that it touches. -/
theorem Merged.flags_of_keeps (merged : Merged s g.start g.fin g.tiflags next m) (keeps : KeepsFlags s (.add g)) (i : ℕ) :
    m.pflags.getLsbD i = true ↔ g.tiflags.getLsbD i = true ∨
      ∃ b ∈ s.fifo, Touches SegInfo.startseq SegInfo.endseq g.start g.fin b ∧ b.pflags.getLsbD i = true := by
  rw [merged.flags]
  constructor
  · rintro (own | ⟨b, member, passes, bit⟩)
    · exact Or.inl own
    · exact Or.inr ⟨b, member, passes.1, bit⟩
  · rintro (own | ⟨b, member, touches, bit⟩)
    · exact Or.inl own
    · by_cases bridges : Bridges s.fifo g.start g.fin
      · exact keeps bridges b member touches i (BitVec.lt_of_getLsbD bit) bit
      · exact Or.inr ⟨b, member, ⟨touches, fun both => bridges both.1⟩, bit⟩

theorem Flagged.add (flagged : Flagged segments s) (valid : s.Valid) (nonempty : g.start < g.fin)
    (merged : Merged s g.start g.fin g.tiflags next m) (keeps : KeepsFlags s (.add g)) :
    Flagged (segments ++ [g]) next where
  proper h member := by
    rcases List.mem_append.mp member with old | new
    · exact flagged.proper h old
    · exact List.mem_singleton.mp new ▸ nonempty
  placed h member := by
    rcases List.mem_append.mp member with old | new
    · obtain ⟨b, inside, left, right⟩ := flagged.placed h old
      by_cases before : b.endseq < g.start
      · exact ⟨b, merged.absorbs.mem.mpr (Or.inl ⟨inside, before⟩), left, right⟩
      · by_cases after : g.fin < b.startseq
        · exact ⟨b, merged.absorbs.mem.mpr (Or.inr (Or.inr ⟨inside, after⟩)), left, right⟩
        · obtain ⟨low, high⟩ := merged.absorbs.inside b inside ⟨not_lt.mp before, not_lt.mp after⟩
          exact ⟨m, merged.absorbs.mem.mpr (Or.inr (Or.inl rfl)), low.trans left, right.trans high⟩
    · rw [List.mem_singleton.mp new]
      exact ⟨m, merged.absorbs.mem.mpr (Or.inr (Or.inl rfl)), merged.absorbs.left, merged.absorbs.right⟩
  flags b member i := by
    simp only [List.mem_append, List.mem_singleton, or_and_right, exists_or, exists_eq_left]
    rcases merged.absorbs.mem.mp member with ⟨inside, before⟩ | rfl | ⟨inside, after⟩
    · have outside : ¬(g.In b ∧ g.tiflags.getLsbD i = true) := fun inB => by
        have right := inB.1.2
        omega
      rw [flagged.flags b inside i, or_iff_left outside]
    · rw [merged.flags_of_keeps keeps]
      constructor
      · rintro (own | ⟨c, inside, touches, bit⟩)
        · exact Or.inr ⟨⟨merged.absorbs.left, merged.absorbs.right⟩, own⟩
        · obtain ⟨h, old, inC, bit'⟩ := (flagged.flags c inside i).mp bit
          obtain ⟨low, high⟩ := merged.absorbs.inside c inside touches
          exact Or.inl ⟨h, old, ⟨low.trans inC.1, inC.2.trans high⟩, bit'⟩
      · rintro (⟨h, old, inB, bit⟩ | ⟨_, own⟩)
        · -- The block that `h` was in meets `b`, so the segment touches it.
          obtain ⟨c, inside, inC⟩ := flagged.placed h old
          have proper := flagged.proper h old
          have touches : Touches SegInfo.startseq SegInfo.endseq g.start g.fin c := by
            constructor
            · by_contra before
              have apart := merged.absorbs.below valid.separated inside (not_le.mp before)
              have first := inB.1
              have last := inC.2
              omega
            · by_contra after
              have apart := merged.absorbs.above valid.separated inside (not_le.mp after)
              have first := inC.1
              have last := inB.2
              omega
          exact Or.inr ⟨c, inside, touches, (flagged.flags c inside i).mpr ⟨h, old, inC, bit⟩⟩
        · exact Or.inl own
    · have outside : ¬(g.In b ∧ g.tiflags.getLsbD i = true) := fun inB => by
        have left := inB.1.1
        omega
      rw [flagged.flags b inside i, or_iff_left outside]

theorem Flagged.run {added : List Segment} (flagged : Flagged segments s) (valid : s.Valid)
    (proper : ∀ g ∈ added, g.start < g.fin) (along : machine.Along KeepsFlags s (added.map Op.add)) :
    ∃ last outs, machine.run s (added.map Op.add) = some (last, outs) ∧ last.Valid ∧
      Flagged (segments ++ added) last := by
  induction added generalizing s segments with
  | nil => exact ⟨s, [], rfl, valid, by rwa [List.append_nil]⟩
  | cons g added ih =>
    obtain ⟨nonempty, proper⟩ := List.forall_mem_cons.mp proper
    obtain ⟨next, flags, m, taken, merged⟩ := valid.add_merged nonempty g.tiflags g.rqflags
    have taken : machine.step s (.add g) = some (next, flags) := taken
    obtain ⟨last, outs, ran, valid', flagged'⟩ :=
      ih (flagged.add valid nonempty merged along.head) merged.valid proper (along.tail taken)
    refine ⟨last, flags :: outs, by rw [List.map_cons, Machine.run_cons taken, ran]; rfl, valid', ?_⟩
    rwa [List.append_assoc, List.singleton_append] at flagged'

/-- In a run of `add` that never drops the flags of the upper one of two joined blocks,
the flags of every segment stay with its bytes until `clearto` hands them out. -/
theorem flags_kept (rcvnxt : ℤ) (segments : List Segment) (proper : ∀ g ∈ segments, g.start < g.fin)
    (along : machine.Along KeepsFlags (make rcvnxt) (segments.map Op.add)) :
    ∃ last outs, machine.run (make rcvnxt) (segments.map Op.add) = some (last, outs) ∧
      (∀ g ∈ segments, ∃ b ∈ last.fifo, g.In b) ∧
      (∀ b ∈ last.fifo, ∀ i, b.pflags.getLsbD i = true ↔ ∃ g ∈ segments, g.In b ∧ g.tiflags.getLsbD i = true) ∧
      ∀ seq, ∀ g ∈ segments, g.start < seq → ∀ i, g.tiflags.getLsbD i = true →
        (last.clearto seq).2.getLsbD i = true := by
  have start : Flagged [] (make rcvnxt) :=
    ⟨fun _ member => absurd member List.not_mem_nil, fun _ member => absurd member List.not_mem_nil,
      fun _ member => absurd member List.not_mem_nil⟩
  obtain ⟨last, outs, ran, valid, flagged⟩ := start.run (make_valid rcvnxt) proper along
  rw [List.nil_append] at flagged
  refine ⟨last, outs, ran, flagged.placed, flagged.flags, fun seq g member before i bit => ?_⟩
  obtain ⟨b, inside, inB⟩ := flagged.placed g member
  rw [(valid.cleared seq).flags]
  exact Or.inr ⟨b, inside, (inB.1.trans_lt before).le, (flagged.flags b inside i).mpr ⟨g, member, inB, bit⟩⟩

theorem flags_kept_sample : ∃ last outs,
    machine.run (make 0) ([⟨1, 2, 0, 0⟩, ⟨3, 4, 1, 0⟩, ⟨2, 3, 1, 0⟩].map Op.add) = some (last, outs) ∧
      (∀ g ∈ [(⟨1, 2, 0, 0⟩ : Segment), ⟨3, 4, 1, 0⟩, ⟨2, 3, 1, 0⟩], ∃ b ∈ last.fifo, g.In b) ∧
      (∀ b ∈ last.fifo, ∀ i, b.pflags.getLsbD i = true ↔
        ∃ g ∈ [(⟨1, 2, 0, 0⟩ : Segment), ⟨3, 4, 1, 0⟩, ⟨2, 3, 1, 0⟩], g.In b ∧ g.tiflags.getLsbD i = true) ∧
      ∀ seq, ∀ g ∈ [(⟨1, 2, 0, 0⟩ : Segment), ⟨3, 4, 1, 0⟩, ⟨2, 3, 1, 0⟩], g.start < seq → ∀ i,
        g.tiflags.getLsbD i = true → (last.clearto seq).2.getLsbD i = true :=
  flags_kept 0 [⟨1, 2, 0, 0⟩, ⟨3, 4, 1, 0⟩, ⟨2, 3, 1, 0⟩] (by decide) (by decide +kernel)

/-- A FIN in `[3, 4)` is gone once the hole below it is filled. -/
theorem fin_lost : ∃ last outs,
    machine.run (make 0) ([⟨1, 2, 0, 0⟩, ⟨3, 4, 1, 0⟩, ⟨2, 3, 0, 0⟩].map Op.add) = some (last, outs) ∧
      (last.fifo.map fun b => (b.startseq, b.endseq, b.pflags)) = [(1, 4, 0)] ∧ (last.clearto 4).2 = 0 := by
  refine ⟨((machine.run (make 0) ([⟨1, 2, 0, 0⟩, ⟨3, 4, 1, 0⟩, ⟨2, 3, 0, 0⟩].map Op.add)).get (by decide +kernel)).1,
    ((machine.run (make 0) ([⟨1, 2, 0, 0⟩, ⟨3, 4, 1, 0⟩, ⟨2, 3, 0, 0⟩].map Op.add)).get (by decide +kernel)).2, ?_, ?_, ?_⟩
  all_goals decide +kernel

end Flags

end Ns2.ReassemblyQueue
