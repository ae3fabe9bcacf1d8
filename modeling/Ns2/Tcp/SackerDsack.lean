import Ns2.Tcp.Sacker

namespace Ns2.Sacker

open Acker (Received Tracks received_append recorded)

variable {past : List Arrival} {x : Arrival} {s : Sacker} {entries : List SackBlock} {a a' : Acker}

/-- The same sink with `generate_dsacks_` off. -/
def quiet (s : Sacker) : Sacker := { s with dsacks := false }

/-- `generate_dsacks_` is read only when the packet is a duplicate. -/
theorem appendAck_of_new (fresh : s.isDup = false) (oldSeqno : ℕ) :
    s.appendAck oldSeqno = (s.quiet.appendAck oldSeqno).map fun ack => ({ ack.1 with dsacks := s.dsacks }, ack.2) := by
  have same : s.quiet.isDup = false := fresh
  simp only [appendAck, fresh, same, Bool.and_false, apply_ite (Option.map _), Option.bind_eq_bind, Option.map_bind,
    Function.comp_def]
  rfl

/-- Blocks that report different maximal runs. -/
structure Runs (past : List Arrival) (a : Acker) (blocks : List SackBlock) : Prop where
  runs : ∀ b ∈ blocks, IsRun past a b
  nodup : blocks.Nodup

theorem kept_sublist (recent : SackBlock) (places : ℕ) (rest : List SackBlock) :
    (kept recent places rest).Sublist rest := by
  fun_induction kept recent places rest with
  | case1 => exact List.Sublist.refl _
  | case2 => exact List.Sublist.refl _
  | case3 places b rest covered ih => exact ih.cons b
  | case4 places b rest open_ ih => exact ih.cons_cons b

/-- When the newest block is not the first entry that the loop does not come to, it is not
among the entries that its push keeps. -/
theorem not_mem_kept {recent : SackBlock} {places : ℕ} {rest : List SackBlock} (nodup : rest.Nodup)
    (same : ∀ b ∈ rest, Covered recent b → b = recent) (other : rest[places]? ≠ some recent) :
    recent ∉ (kept recent places rest).take (places + 1) := by
  fun_induction kept recent places rest with
  | case1 => simp
  | case2 rest more =>
    cases rest with
    | nil => simp
    | cons b rest => simpa [eq_comm] using other
  | case3 places b rest covered ih =>
    have newest := same b List.mem_cons_self covered
    intro member
    have inside := (kept_sublist recent (places + 1) rest).subset (List.mem_of_mem_take member)
    exact (List.nodup_cons.mp nodup).1 (newest ▸ inside)
  | case4 places b rest open_ ih =>
    have different : recent ≠ b := fun newest => open_ (newest ▸ ⟨le_rfl, le_rfl⟩)
    have later := ih (List.nodup_cons.mp nodup).2 (fun c member => same c (List.mem_cons_of_mem b member))
      (by simpa using other)
    rw [List.take_succ_cons, List.mem_cons]
    exact fun member => member.elim different later

/-- The packet does not lie in the last place of the stack but one. The loop of a duplicate that has
two blocks in the header does not come to that place, and `push` moves it to the last one. -/
def Cleared (s : Sacker) (x : Arrival) : Prop :=
  2 ≤ s.baseNblocks → ¬(s.sf.sfe (s.baseNblocks - 2)).Covers x.seq

instance Cleared.decidable (s : Sacker) (x : Arrival) : Decidable (Cleared s x) :=
  inferInstanceAs (Decidable (_ → _))

theorem Reports.cleared_ne (reports : Reports past s.quiet entries) (cleared : Cleared s x) (two : 2 ≤ s.baseNblocks)
    {recent : SackBlock} (covers : recent.Covers x.seq) : entries[s.baseNblocks - 2]? ≠ some recent := by
  have size : s.sf.size = s.baseNblocks := reports.size
  have stored : s.sf.sfe (s.baseNblocks - 2) = entries[s.baseNblocks - 2]?.getD SackStack.unused :=
    reports.holds.stored (s.baseNblocks - 2) (by simp only [quiet]; omega)
  intro held
  rw [held, Option.getD_some] at stored
  exact cleared two (stored ▸ covers)

/-- The entries that a packet which came before leaves in the loop. -/
theorem Reports.again (reports : Reports past s.quiet entries) (old : Received past x.seq)
    (after : Tracks (past ++ [x]) a') (recent : SackBlock) (places : ℕ) :
    Runs (past ++ [x]) a' (kept recent places entries) where
  runs b member := (reports.runs b ((kept_sublist recent places entries).subset member)).again old after
  nodup := reports.nodup.sublist (kept_sublist recent places entries)

/-- The ACK for a duplicate below the cumulative ACK has the DSACK block alone before the older ones. -/
theorem Reports.lateDup (reports : Reports past s.quiet entries) (old : Received past x.seq)
    (after : Tracks (past ++ [x]) a') (recent dsack : SackBlock) (some_ : 0 < s.baseNblocks) :
    ∃ sf rest kept, olderBlocks recent a'.maxseen s.baseNblocks (s.sf.size + s.baseNblocks + 1) s.sf 0 [dsack] =
        some (sf, dsack :: rest) ∧
      Reports (past ++ [x]) { s with toAcker := a', sf }.quiet kept ∧ Runs (past ++ [x]) a' rest := by
  have holds : s.sf.Holds entries := reports.holds
  have size : s.sf.size = s.baseNblocks := reports.size
  have fits := holds.fits
  obtain ⟨sf, looped, sizes, ends⟩ := olderBlocks_spec recent s.baseNblocks (s.sf.size + s.baseNblocks + 1) [] [dsack]
    holds (reports.credible after) some_ (by simp only [List.length_nil, List.length_singleton]; omega) (by omega)
  have left := reports.again old after recent (s.baseNblocks - 1)
  refine ⟨sf, _, _, looped, ⟨after, ends, sizes.trans size, left.runs, left.nodup, rfl⟩, ?_, ?_⟩
  · intro b member
    exact (reports.runs b (List.mem_filter.mp (List.mem_of_mem_take member)).1).again old after
  · exact (reports.nodup.filter _).sublist (List.take_sublist _ _)

/-- The ACK for a duplicate above it has the run of the packet after the DSACK block. -/
theorem Reports.windowDup (reports : Reports past s.quiet entries) (old : Received past x.seq)
    (after : Tracks (past ++ [x]) a') {l right : ℕ} (run : MaximalRun (past ++ [x]) l right) (above : a'.next < l)
    (low : l ≤ x.seq) (high : x.seq < right) (dsack : SackBlock) (two : 2 ≤ s.baseNblocks) (cleared : Cleared s x) :
    ∃ sf pushed next rest kept,
      olderBlocks ⟨l, right⟩ a'.maxseen s.baseNblocks (s.sf.size + s.baseNblocks + 1) s.sf 0 [dsack, ⟨l, right⟩] =
        some (sf, dsack :: ⟨l, right⟩ :: rest) ∧
      sf.push 0 = some pushed ∧ pushed.write 0 ⟨l, right⟩ = some next ∧
      Reports (past ++ [x]) { s with toAcker := a', sf := next }.quiet kept ∧
      Runs (past ++ [x]) a' (⟨l, right⟩ :: rest) := by
  have holds : s.sf.Holds entries := reports.holds
  have size : s.sf.size = s.baseNblocks := reports.size
  have fits := holds.fits
  obtain ⟨sf, looped, sizes, ends⟩ := olderBlocks_spec ⟨l, right⟩ s.baseNblocks (s.sf.size + s.baseNblocks + 1) []
    [dsack, ⟨l, right⟩] holds (reports.credible after) two
    (by simp only [List.length_nil, List.length_cons]; omega) (by omega)
  obtain ⟨pushed, next, pushes, writes, size', stored⟩ := ends.push (b := ⟨l, right⟩) (by omega)
  have newest : IsRun (past ++ [x]) a' ⟨l, right⟩ := ⟨l, right, rfl, run, above⟩
  have same : ∀ b ∈ entries, Covered ⟨l, right⟩ b → b = ⟨l, right⟩ := by
    intro b member covered
    obtain ⟨l', r', rfl, run', _⟩ := (reports.runs b member).again old after
    by_contra different
    have nonempty := run'.nonempty
    have apart := run.apart run' fun equal => different (by rw [equal.1, equal.2])
    simp only [Covered] at covered
    omega
  have other := reports.cleared_ne cleared two (show SackBlock.Covers ⟨l, right⟩ x.seq from ⟨by simp only; omega, by simp only; omega⟩)
  have left := reports.again old after ⟨l, right⟩ (s.baseNblocks - 2)
  have fresh := not_mem_kept reports.nodup same other
  obtain ⟨runs, nodup⟩ := reports.older after ⟨l, right⟩ (Or.inr ⟨l, right, rfl, run, low, high⟩) (s.baseNblocks - 2)
  rw [sizes, size, List.nil_append, List.length_cons, List.length_singleton, List.take_cons (by omega),
    show s.baseNblocks - 1 = s.baseNblocks - 2 + 1 by omega] at stored
  refine ⟨sf, pushed, next, _, _, looped, pushes, writes, ⟨after, stored, ?_, ?_, ?_, rfl⟩, ?_, ?_⟩
  · exact size'.trans (sizes.trans size)
  · intro b member
    rcases List.mem_cons.mp member with first | older
    · exact first ▸ newest
    · exact left.runs b (List.mem_of_mem_take older)
  · exact List.nodup_cons.mpr ⟨fresh, left.nodup.sublist (List.take_sublist _ _)⟩
  · intro b member
    rcases List.mem_cons.mp member with first | older
    · exact first ▸ newest
    · exact (runs b older).1
  · exact List.nodup_cons.mpr ⟨fun again => (runs _ again).2 rfl, nodup⟩

/-- The ACK for a packet that came before. -/
theorem Reports.dupAck (reports : Reports past s.quiet entries) (old : Received past x.seq)
    (after : Tracks (past ++ [x]) a') (dup : a'.isDup = true)
    (held : ∀ k, s.next ≤ k → k ≤ a'.maxseen + 1 → a'.seen (k &&& a'.wndmask) = recorded (past ++ [x]) k)
    (on : s.dsacks = true) (cleared : Cleared s x) :
    ∃ sf blocks kept, ({ s with toAcker := a' } : Sacker).appendAck x.seq = some ({ s with toAcker := a', sf }, blocks) ∧
      Reports (past ++ [x]) { s with toAcker := a', sf }.quiet kept ∧ Runs (past ++ [x]) a' (blocks.drop 1) := by
  have holds : s.sf.Holds entries := reports.holds
  have size : s.sf.size = s.baseNblocks := reports.size
  have fits := holds.fits
  have none : Runs (past ++ [x]) a' [] := ⟨fun b member => absurd member List.not_mem_nil, List.nodup_nil⟩
  have left := reports.again old after ⟨0, 0⟩ 0
  rw [kept_zero] at left
  have unchanged : Reports (past ++ [x]) { s with toAcker := a' }.quiet entries :=
    ⟨after, holds, size, left.runs, left.nodup, rfl⟩
  simp only [appendAck]
  by_cases beyond : (a'.next : ℤ) - 1 ≥ a'.maxseen ∧ s.sf.cnt ≠ 0
  · obtain ⟨sf, resets, sizes, empty⟩ := holds.reset
    rw [if_pos beyond, resets]
    exact ⟨sf, [], [], rfl, ⟨after, empty, sizes.trans size, none.runs, none.nodup, rfl⟩, none⟩
  rw [if_neg beyond]
  by_cases room : s.baseNblocks > 0
  · rw [if_pos ⟨Or.inr dup, room⟩, on, dup, Bool.and_self, if_pos rfl]
    by_cases single : [(⟨x.seq, x.seq + 1⟩ : SackBlock)].length ≥ s.baseNblocks
    · rw [if_pos single]
      exact ⟨s.sf, _, entries, rfl, unchanged, none⟩
    rw [if_neg single]
    rw [List.length_singleton] at single
    rcases recent_spec reports.tracks after held with ⟨late, -⟩ | ⟨above, l, value, nextLeft, run, low, high⟩
    · obtain ⟨sf, rest, kept, looped, ends, runs⟩ :=
        reports.lateDup old after ⟨0, sackRight a' x.seq⟩ ⟨x.seq, x.seq + 1⟩ room
      have below : (x.seq : ℤ) ≤ a'.next - 1 := by omega
      simp only [if_pos below, looped, if_neg (not_lt.mpr below), Option.bind_eq_bind, Option.bind_some]
      exact ⟨sf, _, kept, rfl, ends, runs⟩
    · obtain ⟨sf, pushed, next, rest, kept, looped, pushes, writes, ends, runs⟩ :=
        reports.windowDup old after run nextLeft low high ⟨x.seq, x.seq + 1⟩ (by omega) cleared
      have notBelow : ¬(x.seq : ℤ) ≤ a'.next - 1 := by omega
      simp only [if_neg notBelow, value, List.singleton_append, looped, if_pos (not_le.mp notBelow), pushes, writes,
        Option.bind_eq_bind, Option.bind_some]
      exact ⟨next, _, kept, rfl, ends, runs⟩
  · rw [if_neg fun reporting => room reporting.2]
    exact ⟨s.sf, [], entries, rfl, unchanged, none⟩

/-- A packet and its ACK, whether the packet came before or not. -/
theorem Reports.dsackStep (reports : Reports past s.quiet entries) (nonempty : 0 < x.numBytes) (on : s.dsacks = true)
    (cleared : Cleared s x) :
    ∃ next bytes blocks kept, machine.step s x = some (next, bytes, blocks) ∧ Reports (past ++ [x]) next.quiet kept ∧
      next.dsacks = true ∧ next.baseNblocks = s.baseNblocks ∧
      Runs (past ++ [x]) next.toAcker (blocks.drop (if next.isDup then 1 else 0)) := by
  obtain ⟨a', bytes, updated, after, dup, _, _, held⟩ := reports.tracks.updated nonempty
  have updated' : s.toAcker.update x.seq x.numBytes = some (a', bytes) := updated
  by_cases old : Received past x.seq
  · obtain ⟨sf, blocks, kept, acked, ends, runs⟩ := reports.dupAck old after (dup.mpr old) held on cleared
    refine ⟨_, bytes, blocks, kept, ?_, ends, on, rfl, ?_⟩
    · simp only [machine, updated', acked, Option.bind_eq_bind, Option.bind_some]
      rfl
    · rwa [if_pos (dup.mpr old)]
  · have fresh : a'.isDup = false := by simpa using mt dup.mp old
    obtain ⟨sf, blocks, acked, ends, _⟩ := reports.ack after held
    have acked' : ({ s with toAcker := a' } : Sacker).appendAck x.seq = some ({ s with toAcker := a', sf }, blocks) := by
      have quietly : ({ s with toAcker := a' } : Sacker).quiet.appendAck x.seq =
          some ({ s with toAcker := a', sf, dsacks := false }, blocks) := acked
      rw [appendAck_of_new fresh, quietly]
      rfl
    refine ⟨{ s with toAcker := a', sf }, bytes, blocks, blocks, ?_, ends, on, rfl, ?_⟩
    · simp only [machine, updated', acked', Option.bind_eq_bind, Option.bind_some]
      rfl
    · rw [if_neg (by simp only [fresh, Bool.false_eq_true, not_false_eq_true])]
      exact ⟨ends.runs, ends.nodup⟩

theorem run_dsacks (nblocks : ℕ) (past : List Arrival) (positive : ∀ x ∈ past, 0 < x.numBytes)
    (cleared : machine.Along Cleared (make nblocks true) past) :
    ∃ s answers entries, machine.run (make nblocks true) past = some (s, answers) ∧ Reports past s.quiet entries ∧
      s.dsacks = true := by
  induction past using List.reverseRecOn with
  | nil => exact ⟨_, [], [], rfl, make_reports nblocks, rfl⟩
  | append_singleton past x ih =>
    obtain ⟨s, answers, entries, ran, reports, on⟩ := ih (fun y member => positive y (by simp [member])) cleared.left
    obtain ⟨next, bytes, blocks, kept, taken, after, still, _⟩ :=
      reports.dsackStep (positive x (by simp)) on (cleared.right ran).head
    refine ⟨next, answers ++ [(bytes, blocks)], kept, ?_, after, still⟩
    rw [Machine.run_append ran, Machine.run_cons (M := machine) taken]
    rfl

end Ns2.Sacker
