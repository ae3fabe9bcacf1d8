import Ns2.Tcp.Acker
import Ns2.Tcp.SackStack

namespace Ns2

/-- `Sacker`: an `Acker` that reports SACK blocks, at most `base_nblocks_` in one
ACK, and DSACK blocks when `generate_dsacks_` is set. -/
structure Sacker extends Acker where
  sf : SackStack
  baseNblocks : ℕ
  dsacks : Bool

namespace Sacker

open Acker (Received Tracks received_append recorded recorded_pos)

/-- `configure` for a sink with `nblocks` as its `max_sack_blocks_`. -/
def make (nblocks : ℕ) (dsacks : Bool) : Sacker :=
  { Acker.init with sf := SackStack.make nblocks, baseNblocks := nblocks, dsacks }

/-- Looking rightward from the current packet for the first hole. -/
def sackRight (a : Acker) (oldSeqno : ℕ) : ℕ :=
  ((List.range' oldSeqno (a.maxseen + 1 - oldSeqno)).find? fun i =>
    a.seen (i &&& a.wndmask) = 0).getD (a.maxseen + 1)

/-- Looking leftward for the first hole through the `count` packets from `next_` on. -/
def sackLeft (a : Acker) : ℕ → ℤ
  | 0 => -1
  | count + 1 => if a.seen ((a.next + count) &&& a.wndmask) = 0 then a.next + count + 1 else sackLeft a count

/-- The newest block covers this older one. -/
def Covered (recent b : SackBlock) : Prop := recent.left ≤ b.left ∧ recent.right ≥ b.right

instance Covered.decidable (recent b : SackBlock) : Decidable (Covered recent b) :=
  inferInstanceAs (Decidable (_ ∧ _))

/-- The loop over the older blocks on the stack. A round takes a place of the
header or an entry off the stack; `rounds` bounds their number. -/
def olderBlocks (recent : SackBlock) (maxseen baseNblocks : ℕ) :
    ℕ → SackStack → ℕ → List SackBlock → Option (SackStack × List SackBlock)
  | 0, _, _, _ => none
  | rounds + 1, sf, k, blocks =>
    if blocks.length < baseNblocks then do
      let b ← sf.read k
      if b.left < 0 ∨ b.right < 0 ∨ b.right > maxseen + 1 then return (sf, blocks)
      else if Covered recent b then olderBlocks recent maxseen baseNblocks rounds (← sf.pop k) k blocks
      else olderBlocks recent maxseen baseNblocks rounds sf (k + 1) (blocks ++ [b])
    else return (sf, blocks)

/-- The SACK blocks that `append_ack` writes into the header, and the stack that it leaves. -/
def appendAck (s : Sacker) (oldSeqno : ℕ) : Option (Sacker × List SackBlock) :=
  let seqno : ℤ := s.next - 1
  if seqno ≥ s.maxseen ∧ s.sf.cnt ≠ 0 then do
    let sf ← s.sf.reset
    return ({ s with sf }, [])
  else if (seqno < s.maxseen ∨ s.isDup) ∧ s.baseNblocks > 0 then
    let blocks : List SackBlock := if s.dsacks && s.isDup then [⟨oldSeqno, oldSeqno + 1⟩] else []
    -- With a DSACK block in the only place the code reports an error and goes on.
    if blocks.length ≥ s.baseNblocks then some (s, blocks)
    else do
      let right := sackRight s.toAcker oldSeqno
      let recent : SackBlock :=
        if oldSeqno ≤ seqno then ⟨0, right⟩ else ⟨sackLeft s.toAcker (right - s.next), right⟩
      let blocks := if oldSeqno ≤ seqno then blocks else blocks ++ [recent]
      let (sf, blocks) ← olderBlocks recent s.maxseen s.baseNblocks (s.sf.size + s.baseNblocks + 1) s.sf 0 blocks
      let sf ← if oldSeqno > seqno then do (← sf.push 0).write 0 recent else some sf
      return ({ s with sf }, blocks)
  else some (s, [])

/-- A packet is passed to `update`, and `append_ack` then builds its ACK. -/
def machine : Machine Sacker Arrival (ℕ × List SackBlock) where
  step s x := do
    let (acker, numToDeliver) ← s.toAcker.update x.seq x.numBytes
    let (next, blocks) ← { s with toAcker := acker }.appendAck x.seq
    return (next, numToDeliver, blocks)

/-- What the loop leaves of the entries when the header has room for `places` more. -/
def kept (recent : SackBlock) : ℕ → List SackBlock → List SackBlock
  | _, [] => []
  | 0, rest => rest
  | places + 1, b :: rest =>
    if Covered recent b then kept recent (places + 1) rest else b :: kept recent places rest

theorem kept_zero (recent : SackBlock) (rest : List SackBlock) : kept recent 0 rest = rest := by
  cases rest <;> rfl

theorem kept_length_le (recent : SackBlock) (places : ℕ) (rest : List SackBlock) :
    (kept recent places rest).length ≤ rest.length := by
  fun_induction kept recent places rest with
  | case1 => rfl
  | case2 => rfl
  | case3 places b rest covered ih => exact ih.trans (Nat.le_succ _)
  | case4 places b rest open_ ih => exact Nat.succ_le_succ ih

theorem kept_take (recent : SackBlock) (places : ℕ) (rest : List SackBlock) :
    (kept recent places rest).take places = (rest.filter fun b => ¬Covered recent b).take places := by
  fun_induction kept recent places rest with
  | case1 => rfl
  | case2 => rfl
  | case3 places b rest covered ih => rw [ih, List.filter_cons_of_neg (by simp [covered])]
  | case4 places b rest open_ ih =>
    rw [List.take_succ_cons, ih, List.filter_cons_of_pos (by simp [open_]), List.take_succ_cons]

/-- An entry that the loop does not take for the end of the history. -/
def Credible (maxseen : ℕ) (b : SackBlock) : Prop := 0 ≤ b.left ∧ 0 ≤ b.right ∧ b.right ≤ maxseen + 1

/-- The loop never leaves the stack's array and ends: it writes the uncovered
entries into the header as far as there is room. -/
theorem olderBlocks_spec (recent : SackBlock) {maxseen : ℕ} (baseNblocks rounds : ℕ) {rest : List SackBlock}
    {sf : SackStack} (before blocks : List SackBlock) (holds : sf.Holds (before ++ rest))
    (credible : ∀ b ∈ rest, Credible maxseen b) (full : blocks.length ≤ baseNblocks)
    (room : before.length + (baseNblocks - blocks.length) ≤ sf.size) (enough : rest.length < rounds) :
    ∃ next, olderBlocks recent maxseen baseNblocks rounds sf before.length blocks =
        some (next, blocks ++ (rest.filter fun b => ¬Covered recent b).take (baseNblocks - blocks.length)) ∧
      next.size = sf.size ∧ next.Holds (before ++ kept recent (baseNblocks - blocks.length) rest) := by
  induction rest generalizing rounds sf before blocks with
  | nil =>
    obtain ⟨rounds, rfl⟩ := Nat.exists_eq_add_one.mpr (show 0 < rounds by omega)
    refine ⟨sf, ?_, rfl, holds⟩
    rw [olderBlocks]
    by_cases space : blocks.length < baseNblocks
    · have inside : before.length < sf.size := by omega
      have slot := holds.stored before.length inside
      rw [List.append_nil, List.getElem?_eq_none le_rfl, Option.getD_none] at slot
      have unused : SackStack.unused.left < 0 := by decide
      rw [if_pos space, SackStack.read, if_pos inside, slot, Option.bind_eq_bind, Option.bind_some,
        if_pos (Or.inl unused)]
      simp
    · rw [if_neg space]
      simp
  | cons b rest ih =>
    obtain ⟨rounds, rfl⟩ := Nat.exists_eq_add_one.mpr (show 0 < rounds by omega)
    rw [olderBlocks]
    by_cases space : blocks.length < baseNblocks
    · obtain ⟨places, room'⟩ : ∃ places, baseNblocks - blocks.length = places + 1 :=
        ⟨baseNblocks - blocks.length - 1, by omega⟩
      have inside : before.length < sf.size := by omega
      have slot := holds.stored before.length inside
      rw [List.getElem?_append_right le_rfl, Nat.sub_self, List.getElem?_cons_zero, Option.getD_some] at slot
      obtain ⟨left, right, within⟩ := credible b List.mem_cons_self
      have others := fun c member => credible c (List.mem_cons_of_mem b member)
      rw [if_pos space, SackStack.read, if_pos inside, slot, Option.bind_eq_bind, Option.bind_some,
        if_neg (by omega)]
      rw [List.length_cons] at enough
      by_cases covered : Covered recent b
      · obtain ⟨popped, pops, size, after⟩ := holds.pop (k := before.length) (by simp)
        rw [List.eraseIdx_append_of_length_le le_rfl, Nat.sub_self, List.eraseIdx_cons_zero] at after
        obtain ⟨next, looped, sizes, ends⟩ := ih rounds before blocks after others full (by omega) (by omega)
        refine ⟨next, ?_, sizes.trans size, ?_⟩
        · rw [if_pos covered, pops, Option.bind_eq_bind, Option.bind_some, looped,
            List.filter_cons_of_neg (by simp [covered])]
        · rw [room'] at ends ⊢
          rwa [kept, if_pos covered]
      · have moved : sf.Holds ((before ++ [b]) ++ rest) := by simpa using holds
        obtain ⟨next, looped, sizes, ends⟩ := ih rounds (before ++ [b]) (blocks ++ [b]) moved others
          (by simp; omega) (by simp; omega) (by omega)
        have fewer : baseNblocks - (blocks.length + 1) = places := by omega
        simp only [List.length_append, List.length_singleton, fewer] at looped ends
        refine ⟨next, ?_, sizes, ?_⟩
        · rw [if_neg covered, looped, List.filter_cons_of_pos (by simp [covered]), room', List.take_succ_cons,
            List.append_assoc]
          rfl
        · rw [room', kept, if_neg covered]
          simpa using ends
    · refine ⟨sf, ?_, rfl, ?_⟩
      · rw [if_neg space, show baseNblocks - blocks.length = 0 by omega]
        simp
      · rwa [show baseNblocks - blocks.length = 0 by omega, kept_zero]

/-- The packets from `l` up to `r` have arrived, and their neighbours have not. -/
structure MaximalRun (past : List Arrival) (l r : ℕ) : Prop where
  nonempty : l < r
  inside : ∀ k, l ≤ k → k < r → Received past k
  right : ¬Received past r
  left : ∀ k, k + 1 = l → ¬Received past k

theorem MaximalRun.left_le {past : List Arrival} {l r k m : ℕ} (run : MaximalRun past l r)
    (received : ∀ j, k ≤ j → j < m → Received past j) (meets : l ≤ m) : l ≤ k := by
  by_contra beyond
  exact run.left (l - 1) (by omega) (received (l - 1) (by omega) (by omega))

theorem MaximalRun.le_right {past : List Arrival} {l r k m : ℕ} (run : MaximalRun past l r)
    (received : ∀ j, k ≤ j → j < m → Received past j) (meets : k ≤ r) : m ≤ r := by
  by_contra beyond
  exact run.right (received r meets (by omega))

/-- Two maximal runs are the same or apart. -/
theorem MaximalRun.apart {past : List Arrival} {l r l' r' : ℕ} (run : MaximalRun past l r)
    (run' : MaximalRun past l' r') (different : ¬(l = l' ∧ r = r')) : r ≤ l' ∨ r' ≤ l := by
  by_contra overlap
  have nonempty := run.nonempty
  have nonempty' := run'.nonempty
  have right := run.le_right run'.inside (by omega)
  have right' := run'.le_right run.inside (by omega)
  have left := run.left_le run'.inside (by omega)
  have left' := run'.left_le run.inside (by omega)
  omega

/-- A run that one more packet does not extend is not covered by that packet's run. -/
theorem MaximalRun.append {past : List Arrival} {x : Arrival} {l r : ℕ} (run : MaximalRun past l r)
    (notAfter : x.seq ≠ r) (notBefore : x.seq + 1 ≠ l) : MaximalRun (past ++ [x]) l r where
  nonempty := run.nonempty
  inside k low high := received_append.mpr (Or.inl (run.inside k low high))
  right claimed := (received_append.mp claimed).elim run.right notAfter
  left k before claimed := (received_append.mp claimed).elim (run.left k before) (by omega)

/-- A block that reports a maximal run above the cumulative ACK. -/
def IsRun (past : List Arrival) (a : Acker) (b : SackBlock) : Prop :=
  ∃ l r : ℕ, b = ⟨l, r⟩ ∧ MaximalRun past l r ∧ a.next < l

theorem IsRun.right_le {past : List Arrival} {a a' : Acker} {b : SackBlock} (run : IsRun past a b)
    (highest : ∀ k, Received past k → k ≤ a'.maxseen) : Credible a'.maxseen b := by
  obtain ⟨l, r, rfl, maximal, _⟩ := run
  have nonempty := maximal.nonempty
  have bound := highest (r - 1) (maximal.inside (r - 1) (by omega) (by omega))
  refine ⟨by simp only; omega, by simp only; omega, by simp only; omega⟩

theorem next_lt_of_maximalRun {past : List Arrival} {a : Acker} (tracks : Tracks past a) {l r : ℕ}
    (run : MaximalRun past l r) (positive : 0 < l) : a.next < l := by
  by_contra within
  rcases (not_lt.mp within).lt_or_eq with less | same
  · exact run.left (l - 1) (by omega) (tracks.below (l - 1) (by omega))
  · exact tracks.missing (same ▸ run.inside l le_rfl run.nonempty)

/-- The blocks that the newest one does not cover still report maximal runs. -/
theorem IsRun.append {past : List Arrival} {x : Arrival} {a a' : Acker} {recent b : SackBlock}
    (run : IsRun past a b) (uncovered : ¬Covered recent b) (after : Tracks (past ++ [x]) a')
    (newest : Received past x.seq ∨ ∃ l r : ℕ, recent = ⟨l, r⟩ ∧ MaximalRun (past ++ [x]) l r ∧
      l ≤ x.seq ∧ x.seq < r) : IsRun (past ++ [x]) a' b := by
  obtain ⟨l, r, rfl, maximal, above⟩ := run
  have nonempty := maximal.nonempty
  have received : ∀ k, l ≤ k → k < r → Received (past ++ [x]) k := fun k low high =>
    received_append.mpr (Or.inl (maximal.inside k low high))
  have apart : x.seq ≠ r ∧ x.seq + 1 ≠ l := by
    rcases newest with old | ⟨l', r', rfl, around, low, high⟩
    · exact ⟨fun same => maximal.right (same ▸ old), fun same => maximal.left x.seq same old⟩
    · have joined : ¬(l' ≤ l ∧ r ≤ r') := fun covers => uncovered ⟨by simp only; omega, by simp only; omega⟩
      constructor
      · intro same
        have left := around.left_le received (by omega)
        omega
      · intro same
        have right := around.le_right received (by omega)
        omega
  have kept := maximal.append apart.1 apart.2
  exact ⟨l, r, rfl, kept, next_lt_of_maximalRun after kept (by omega)⟩

/-- A packet that came before changes no run. -/
theorem IsRun.again {past : List Arrival} {x : Arrival} {a a' : Acker} {b : SackBlock} (run : IsRun past a b)
    (old : Received past x.seq) (after : Tracks (past ++ [x]) a') : IsRun (past ++ [x]) a' b := by
  obtain ⟨l, r, rfl, maximal, above⟩ := run
  have same := maximal.append (fun same => maximal.right (same ▸ old)) fun same => maximal.left x.seq same old
  exact ⟨l, r, rfl, same, next_lt_of_maximalRun after same (by omega)⟩

theorem IsRun.pairwise {past : List Arrival} {a : Acker} {blocks : List SackBlock} (runs : ∀ b ∈ blocks, IsRun past a b)
    (nodup : blocks.Nodup) : blocks.Pairwise fun b c => b ≠ c ∧ (b.right ≤ c.left ∨ c.right ≤ b.left) := by
  refine List.Pairwise.imp_of_mem (fun {b c} memberB memberC different => ⟨different, ?_⟩) nodup
  obtain ⟨l, r, rfl, run, _⟩ := runs b memberB
  obtain ⟨l', r', rfl, run', _⟩ := runs c memberC
  have apart := run.apart run' fun same => different (by rw [same.1, same.2])
  simpa using apart

/-- The rightward scan, where the ring shows the arrivals from its start on. -/
theorem sackRight_spec {past : List Arrival} {a : Acker} (tracks : Tracks past a) (start : ℕ)
    (shown : ∀ k, start ≤ k → k ≤ a.maxseen + 1 → a.seen (k &&& a.wndmask) = recorded past k)
    (inside : start ≤ a.maxseen + 1) :
    start ≤ sackRight a start ∧ (∀ k, start ≤ k → k < sackRight a start → Received past k) ∧
      ¬Received past (sackRight a start) := by
  have present : ∀ k, start ≤ k → k ≤ a.maxseen + 1 → (a.seen (k &&& a.wndmask) ≠ 0 ↔ Received past k) :=
    fun k low high => by rw [shown k low high, recorded_pos tracks.positive]
  unfold sackRight
  cases scan : (List.range' start (a.maxseen + 1 - start)).find? fun i => a.seen (i &&& a.wndmask) = 0 with
  | none =>
    rw [List.find?_range'_eq_none] at scan
    refine ⟨inside, fun k low high => ?_, fun claimed => ?_⟩
    · have seen := scan k low (by simp only [Option.getD_none] at high; omega)
      exact (present k low (by simp only [Option.getD_none] at high; omega)).mp (by simpa using seen)
    · have bound := tracks.highest.2 (Or.inr claimed)
      simp only [Option.getD_none] at bound
      omega
  | some hole =>
    obtain ⟨zero, member, before⟩ := List.find?_range'_eq_some.mp scan
    obtain ⟨low, high⟩ := List.mem_range'_1.mp member
    rw [Option.getD_some]
    refine ⟨low, fun k lowK highK => ?_, fun claimed => ?_⟩
    · have seen := before k lowK highK
      exact (present k lowK (by omega)).mp (by simpa using seen)
    · exact (present hole low (by omega)).mpr claimed (by simpa using zero)

/-- The leftward scan comes to a hole, since the next packet expected is one. -/
theorem sackLeft_spec {past : List Arrival} {a : Acker} (tracks : Tracks past a) (count : ℕ) (nonempty : 0 < count)
    (inside : a.next + count ≤ a.maxseen + 2) :
    ∃ l : ℕ, sackLeft a count = l ∧ a.next < l ∧ l ≤ a.next + count ∧ (∀ k, k + 1 = l → ¬Received past k) ∧
      ∀ k, l ≤ k → k < a.next + count → Received past k := by
  induction count with
  | zero => omega
  | succ count ih =>
    have shown := tracks.ring (a.next + count) (by omega) (by omega)
    have present := recorded_pos tracks.positive (a.next + count)
    rw [sackLeft, shown]
    by_cases hole : recorded past (a.next + count) = 0
    · refine ⟨a.next + count + 1, by rw [if_pos hole]; push_cast; rfl, by omega, by omega, ?_, ?_⟩
      · intro k before
        rw [show k = a.next + count by omega]
        exact fun claimed => present.mpr claimed hole
      · intro k low high
        omega
    · have later : 0 < count := by
        by_contra none
        rw [show count = 0 by omega] at present hole
        exact tracks.missing (present.mp hole)
      obtain ⟨l, value, low, high, before, received⟩ := ih later (by omega)
      refine ⟨l, by rw [if_neg hole, value], low, by omega, before, fun k lowK highK => ?_⟩
      by_cases last : k = a.next + count
      · exact last ▸ present.mp hole
      · exact received k lowK (by omega)

/-- The state after these arrivals: the stack holds the blocks of the latest ACK. -/
structure Reports (past : List Arrival) (s : Sacker) (entries : List SackBlock) : Prop where
  tracks : Tracks past s.toAcker
  holds : s.sf.Holds entries
  size : s.sf.size = s.baseNblocks
  runs : ∀ b ∈ entries, IsRun past s.toAcker b
  nodup : entries.Nodup
  noDsacks : s.dsacks = false

theorem make_reports (nblocks : ℕ) : Reports [] (make nblocks false) [] where
  tracks := Acker.init_tracks
  holds := SackStack.make_holds nblocks
  size := rfl
  runs _ member := absurd member List.not_mem_nil
  nodup := List.nodup_nil
  noDsacks := rfl

/-- The block that the scans find for the packet, and whether it is written into the header. -/
theorem recent_spec {past : List Arrival} {x : Arrival} {a a' : Acker} (tracks : Tracks past a)
    (after : Tracks (past ++ [x]) a')
    (held : ∀ k, a.next ≤ k → k ≤ a'.maxseen + 1 → a'.seen (k &&& a'.wndmask) = recorded (past ++ [x]) k) :
    (x.seq < a'.next ∧ (Received past x.seq ∨ MaximalRun (past ++ [x]) 0 (sackRight a' x.seq))) ∨
      (a'.next < x.seq ∧ ∃ l : ℕ, sackLeft a' (sackRight a' x.seq - a'.next) = l ∧ a'.next < l ∧
        MaximalRun (past ++ [x]) l (sackRight a' x.seq) ∧ l ≤ x.seq ∧ x.seq < sackRight a' x.seq) := by
  have arrived : Received (past ++ [x]) x.seq := received_append.mpr (Or.inr rfl)
  have bound := after.highest.2 (Or.inr arrived)
  rcases Nat.lt_or_ge x.seq a'.next with late | inWindow
  · refine Or.inl ⟨late, ?_⟩
    by_cases old : Received past x.seq
    · exact Or.inl old
    · -- A packet that is new and now below the window was the next one expected.
      have expected : x.seq = a.next := by
        have notBelow : ¬x.seq < a.next := fun less => old (tracks.below x.seq less)
        by_contra other
        have received := after.below a.next (by omega)
        exact (received_append.mp received).elim tracks.missing other
      obtain ⟨low, received, missing⟩ := sackRight_spec after x.seq
        (fun k lowK highK => held k (expected ▸ lowK) highK) (by omega)
      refine Or.inr ⟨?_, ?_, missing, fun k before => absurd before (Nat.succ_ne_zero k)⟩
      · rcases low.lt_or_eq with less | same
        · omega
        · exact absurd (same ▸ arrived) missing
      · intro k _ high
        by_cases early : k < x.seq
        · exact after.below k (by omega)
        · exact received k (by omega) high
  · have above : a'.next < x.seq := by
      rcases inWindow.lt_or_eq with less | same
      · exact less
      · exact absurd (same ▸ arrived) after.missing
    obtain ⟨low, received, missing⟩ := sackRight_spec after x.seq
      (fun k lowK highK => after.ring k (by omega) highK) (by omega)
    have beyond : x.seq < sackRight a' x.seq := by
      rcases low.lt_or_eq with less | same
      · exact less
      · exact absurd (same ▸ arrived) missing
    have within : sackRight a' x.seq ≤ a'.maxseen + 1 := by
      have last := received (sackRight a' x.seq - 1) (by omega) (by omega)
      have highest := after.highest.2 (Or.inr last)
      omega
    obtain ⟨l, value, lowL, highL, before, filled⟩ := sackLeft_spec after (sackRight a' x.seq - a'.next)
      (by omega) (by omega)
    have upTo : a'.next + (sackRight a' x.seq - a'.next) = sackRight a' x.seq := by omega
    rw [upTo] at highL filled
    -- A run that began after the packet would have the packet's own place as a hole.
    have around : l ≤ x.seq := by
      by_contra after'
      exact before (l - 1) (by omega) (received (l - 1) (by omega) (by omega))
    exact Or.inr ⟨above, l, value, lowL, ⟨by omega, filled, missing, before⟩, around, beyond⟩

/-- The blocks that stay on the stack beside the newest one. -/
theorem Reports.older {past : List Arrival} {x : Arrival} {s : Sacker} {entries : List SackBlock} {a' : Acker}
    (reports : Reports past s entries) (after : Tracks (past ++ [x]) a') (recent : SackBlock)
    (newest : Received past x.seq ∨ ∃ l r : ℕ, recent = ⟨l, r⟩ ∧ MaximalRun (past ++ [x]) l r ∧
      l ≤ x.seq ∧ x.seq < r) (places : ℕ) :
    (∀ b ∈ (entries.filter fun b => ¬Covered recent b).take places, IsRun (past ++ [x]) a' b ∧ b ≠ recent) ∧
      ((entries.filter fun b => ¬Covered recent b).take places).Nodup := by
  refine ⟨fun b member => ?_, (reports.nodup.filter _).sublist (List.take_sublist _ _)⟩
  obtain ⟨inside, open_⟩ := List.mem_filter.mp (List.mem_of_mem_take member)
  have uncovered : ¬Covered recent b := by simpa using open_
  exact ⟨(reports.runs b inside).append uncovered after newest, fun same => uncovered (same ▸ ⟨le_rfl, le_rfl⟩)⟩

theorem Reports.credible {past : List Arrival} {x : Arrival} {s : Sacker} {entries : List SackBlock} {a' : Acker}
    (reports : Reports past s entries) (after : Tracks (past ++ [x]) a') : ∀ b ∈ entries, Credible a'.maxseen b :=
  fun b member => (reports.runs b member).right_le fun _ received =>
    after.highest.2 (Or.inr (received_append.mpr (Or.inl received)))

/-- The ACK for a packet below the cumulative ACK: no block for the packet itself. -/
theorem Reports.lateAck {past : List Arrival} {x : Arrival} {s : Sacker} {entries : List SackBlock} {a' : Acker}
    (reports : Reports past s entries) (after : Tracks (past ++ [x]) a') {right : ℕ}
    (newest : Received past x.seq ∨ MaximalRun (past ++ [x]) 0 right) (late : x.seq < a'.next) :
    ∃ sf blocks, olderBlocks ⟨0, right⟩ a'.maxseen s.baseNblocks (s.sf.size + s.baseNblocks + 1) s.sf 0 [] =
      some (sf, blocks) ∧ Reports (past ++ [x]) { s with toAcker := a', sf } blocks := by
  have fits := reports.holds.fits
  have size := reports.size
  have covering : Received past x.seq ∨ ∃ l r : ℕ, (⟨0, right⟩ : SackBlock) = ⟨l, r⟩ ∧
      MaximalRun (past ++ [x]) l r ∧ l ≤ x.seq ∧ x.seq < r := by
    refine newest.imp_right fun run => ⟨0, right, rfl, run, Nat.zero_le _, ?_⟩
    by_contra beyond
    exact run.right (after.below right (by omega))
  obtain ⟨next, looped, sizes, ends⟩ := olderBlocks_spec ⟨0, right⟩ s.baseNblocks (s.sf.size + s.baseNblocks + 1) [] []
    reports.holds (reports.credible after) (Nat.zero_le s.baseNblocks) (by simp only [List.length_nil]; omega) (by omega)
  obtain ⟨runs, nodup⟩ := reports.older after ⟨0, right⟩ covering s.baseNblocks
  simp only [List.length_nil, Nat.sub_zero, List.nil_append] at looped ends
  have short := kept_length_le ⟨0, right⟩ s.baseNblocks entries
  rw [← List.take_of_length_le (show (kept ⟨0, right⟩ s.baseNblocks entries).length ≤ s.baseNblocks by omega),
    kept_take] at ends
  exact ⟨next, _, looped, after, ends, sizes.trans size, fun b member => (runs b member).1, nodup,
    reports.noDsacks⟩

/-- The ACK for a packet above the cumulative ACK: its run comes first, in the header and on the stack. -/
theorem Reports.windowAck {past : List Arrival} {x : Arrival} {s : Sacker} {entries : List SackBlock} {a' : Acker}
    (reports : Reports past s entries) (after : Tracks (past ++ [x]) a') {l right : ℕ}
    (run : MaximalRun (past ++ [x]) l right) (above : a'.next < l) (low : l ≤ x.seq) (high : x.seq < right)
    (some_ : 0 < s.baseNblocks) :
    ∃ sf pushed next blocks,
      olderBlocks ⟨l, right⟩ a'.maxseen s.baseNblocks (s.sf.size + s.baseNblocks + 1) s.sf 0 [⟨l, right⟩] =
        some (sf, ⟨l, right⟩ :: blocks) ∧
      sf.push 0 = some pushed ∧ pushed.write 0 ⟨l, right⟩ = some next ∧
      Reports (past ++ [x]) { s with toAcker := a', sf := next } (⟨l, right⟩ :: blocks) := by
  have fits := reports.holds.fits
  have size := reports.size
  obtain ⟨sf, looped, sizes, ends⟩ := olderBlocks_spec ⟨l, right⟩ s.baseNblocks (s.sf.size + s.baseNblocks + 1) [] [⟨l, right⟩]
    reports.holds (reports.credible after) some_ (by simp only [List.length_nil, List.length_singleton]; omega) (by omega)
  obtain ⟨pushed, next, pushes, writes, size', stored⟩ := ends.push (b := ⟨l, right⟩) (by omega)
  obtain ⟨runs, nodup⟩ := reports.older after ⟨l, right⟩ (Or.inr ⟨l, right, rfl, run, low, high⟩)
    (s.baseNblocks - 1)
  obtain ⟨places, count⟩ := Nat.exists_eq_add_one.mpr some_
  rw [sizes, size, count, List.nil_append, List.length_singleton, Nat.add_sub_cancel, List.take_succ_cons,
    kept_take] at stored
  rw [count, Nat.add_sub_cancel] at runs nodup
  rw [List.length_singleton, count, Nat.add_sub_cancel] at looped
  refine ⟨sf, pushed, next, _, count ▸ looped, pushes, writes, after, stored, ?_, ?_, ?_, reports.noDsacks⟩
  · exact size'.trans (sizes.trans size)
  · intro b member
    rcases List.mem_cons.mp member with first | older
    · exact ⟨l, right, first, run, above⟩
    · exact (runs b older).1
  · exact List.nodup_cons.mpr ⟨fun again => (runs _ again).2 rfl, nodup⟩

theorem Reports.ack {past : List Arrival} {x : Arrival} {s : Sacker} {entries : List SackBlock} {a' : Acker}
    (reports : Reports past s entries) (after : Tracks (past ++ [x]) a')
    (held : ∀ k, s.next ≤ k → k ≤ a'.maxseen + 1 → a'.seen (k &&& a'.wndmask) = recorded (past ++ [x]) k) :
    ∃ sf blocks, ({ s with toAcker := a' } : Sacker).appendAck x.seq = some ({ s with toAcker := a', sf }, blocks) ∧
      Reports (past ++ [x]) { s with toAcker := a', sf } blocks ∧
      (a'.next ≤ x.seq → 0 < s.baseNblocks →
        ∃ b rest, blocks = b :: rest ∧ b.left ≤ x.seq ∧ x.seq < b.right) := by
  have arrived : Received (past ++ [x]) x.seq := received_append.mpr (Or.inr rfl)
  have bound := after.highest.2 (Or.inr arrived)
  have counted := reports.holds.counted
  have fits := reports.holds.fits
  have size := reports.size
  have recent := recent_spec reports.tracks after held
  simp only [appendAck]
  by_cases beyond : (a'.next : ℤ) - 1 ≥ a'.maxseen ∧ s.sf.cnt ≠ 0
  · obtain ⟨sf, resets, sizes, empty⟩ := reports.holds.reset
    rw [if_pos beyond, resets]
    refine ⟨sf, [], rfl, ⟨after, empty, sizes.trans size, ?_, List.nodup_nil, reports.noDsacks⟩, fun above => ?_⟩
    · exact fun b member => absurd member List.not_mem_nil
    · omega
  rw [if_neg beyond]
  by_cases reporting : ((a'.next : ℤ) - 1 < a'.maxseen ∨ a'.isDup = true) ∧ s.baseNblocks > 0
  · have noDsack : (s.dsacks && a'.isDup) = false := by rw [reports.noDsacks, Bool.false_and]
    have room : ¬([] : List SackBlock).length ≥ s.baseNblocks := by
      rw [List.length_nil]
      omega
    rw [if_pos reporting, noDsack, if_neg Bool.false_ne_true, if_neg room]
    rcases recent with ⟨late, newest⟩ | ⟨above, l, value, nextLeft, run, low, high⟩
    · obtain ⟨sf, blocks, looped, ends⟩ := reports.lateAck after newest late
      have below : (x.seq : ℤ) ≤ a'.next - 1 := by omega
      simp only [if_pos below, looped, if_neg (not_lt.mpr below), Option.bind_eq_bind, Option.bind_some]
      exact ⟨sf, blocks, rfl, ends, fun inWindow => absurd inWindow (not_le.mpr late)⟩
    · obtain ⟨sf, pushed, next, blocks, looped, pushes, writes, ends⟩ :=
        reports.windowAck after run nextLeft low high reporting.2
      have notBelow : ¬(x.seq : ℤ) ≤ a'.next - 1 := by omega
      simp only [if_neg notBelow, value, List.nil_append, looped, if_pos (not_le.mp notBelow), pushes, writes,
        Option.bind_eq_bind, Option.bind_some]
      exact ⟨next, _, rfl, ends, fun _ _ => ⟨_, _, rfl, by simp only; omega, by simp only; omega⟩⟩
  · have none : entries = [] := by
      refine List.eq_nil_of_length_eq_zero ?_
      by_contra some_
      omega
    rw [if_neg reporting]
    refine ⟨s.sf, [], rfl, ⟨after, none ▸ reports.holds, size, ?_, List.nodup_nil, reports.noDsacks⟩, ?_⟩
    · exact fun b member => absurd member List.not_mem_nil
    · intro above room
      have within : (a'.next : ℤ) - 1 < a'.maxseen := by omega
      exact absurd ⟨Or.inl within, room⟩ reporting

/-- A packet and its ACK. -/
theorem Reports.step {past : List Arrival} {x : Arrival} {s : Sacker} {entries : List SackBlock}
    (reports : Reports past s entries) (nonempty : 0 < x.numBytes) :
    ∃ next bytes blocks, machine.step s x = some (next, bytes, blocks) ∧ Reports (past ++ [x]) next blocks ∧
      next.baseNblocks = s.baseNblocks ∧ (next.next ≤ x.seq → 0 < s.baseNblocks →
        ∃ b rest, blocks = b :: rest ∧ b.left ≤ x.seq ∧ x.seq < b.right) := by
  obtain ⟨a', bytes, updated, after, _, _, _, held⟩ := reports.tracks.updated nonempty
  obtain ⟨sf, blocks, acked, ends, first⟩ := reports.ack after held
  refine ⟨_, bytes, blocks, ?_, ends, rfl, first⟩
  simp only [machine, updated, acked, Option.bind_eq_bind, Option.bind_some]
  rfl

theorem run_reports (nblocks : ℕ) (past : List Arrival) (positive : ∀ x ∈ past, 0 < x.numBytes) :
    ∃ s answers entries, machine.run (make nblocks false) past = some (s, answers) ∧ Reports past s entries ∧
      s.baseNblocks = nblocks := by
  induction past using List.reverseRecOn with
  | nil => exact ⟨_, [], [], rfl, make_reports nblocks, rfl⟩
  | append_singleton past x ih =>
    obtain ⟨s, answers, entries, ran, reports, size⟩ := ih fun y member => positive y (by simp [member])
    obtain ⟨next, bytes, blocks, taken, after, same, _⟩ := reports.step (positive x (by simp))
    refine ⟨next, answers ++ [(bytes, blocks)], blocks, ?_, after, same.trans size⟩
    rw [Machine.run_append ran, Machine.run_cons (M := machine) taken]
    rfl

end Sacker

end Ns2
