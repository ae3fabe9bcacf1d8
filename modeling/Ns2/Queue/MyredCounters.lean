import Ns2.Queue.Myred

namespace Ns2

open Queue

variable {α : Type*}

namespace Myred

/-- Whether `enque` keeps the packet of an arrival. -/
def Stores (s : Myred α) (arrival : ℕ × α) : Prop :=
  s.q.length < 35 ∧
    (s.avg < s.minth ∨ s.avg < s.maxth ∧ ¬((arrival.1 % 100 : ℕ) : ℚ) ≤ (s.avg - s.minth) / (s.maxth - s.minth) * s.maxp * 100)

variable {s : Myred α} {rand : ℕ} {pkt : α}

theorem enque_opktcnt (s : Myred α) (rand : ℕ) (pkt : α) : (s.enque rand pkt).1.opktcnt = s.opktcnt := by
  unfold enque
  dsimp only
  split_ifs <;> rfl

theorem enque_q_of_stores (stores : s.Stores (rand, pkt)) : (s.enque rand pkt).1.q = s.q ++ [pkt] := by
  obtain ⟨room, reason⟩ := stores
  have space : ¬s.q.length ≥ 35 := by omega
  unfold enque
  dsimp only [countArrival]
  rw [if_neg space]
  by_cases low : s.avg < s.minth
  · rw [if_pos low]
    rfl
  · obtain ⟨below, kept⟩ := reason.resolve_left low
    rw [if_neg low, if_pos ⟨not_lt.mp low, below⟩, if_neg kept]
    rfl

theorem enque_q_of_not_stores (refused : ¬s.Stores (rand, pkt)) : (s.enque rand pkt).1.q = s.q := by
  unfold enque
  dsimp only [countArrival]
  split_ifs with full low between dropped above
  · rfl
  · exact absurd ⟨not_le.mp full, .inl low⟩ refused
  · rfl
  · exact absurd ⟨not_le.mp full, .inr ⟨between.2, dropped⟩⟩ refused
  · rfl
  · rfl

theorem enque_q_ne_nil_iff (s : Myred α) (arrival : ℕ × α) :
    (s.enque arrival.1 arrival.2).1.q ≠ [] ↔ s.q ≠ [] ∨ s.Stores arrival := by
  by_cases stores : s.Stores arrival
  · rw [enque_q_of_stores stores]
    simp [stores]
  · rw [enque_q_of_not_stores stores]
    simp [stores]

theorem counting : Counting (discipline (α := α)) opktcnt q Stores where
  enque := fun s arrival => s.enque_opktcnt arrival.1 arrival.2
  stored := enque_q_ne_nil_iff
  deque := fun _ => rfl
  first := fun _ => rfl

theorem command_opktcnt {name : MyredCommand} (other : name ≠ .output) (s : Myred α) : (s.command name).1.opktcnt = s.opktcnt := by
  cases name with
  | totalpkt => rfl
  | getAvg => rfl
  | output => exact absurd rfl other

end Myred

namespace Ared

theorem counting : Counting (discipline (α := α)) (·.opktcnt) (·.q) (fun s => s.Stores) where
  enque := fun s arrival => s.toMyred.enque_opktcnt arrival.1 arrival.2
  stored := fun s => s.toMyred.enque_q_ne_nil_iff
  deque := fun _ => rfl
  first := fun _ => rfl

theorem getAvg_opktcnt (s : Ared α) : s.getAvg.opktcnt = s.opktcnt := by
  unfold getAvg
  dsimp only
  split_ifs <;> rfl

theorem command_opktcnt {name : MyredCommand} (other : name ≠ .output) (s : Ared α) : (s.command name).1.opktcnt = s.opktcnt := by
  cases name with
  | totalpkt => rfl
  | getAvg => exact s.getAvg_opktcnt
  | output => exact absurd rfl other

end Ared

namespace Pared

theorem counting : Counting (discipline (α := α)) (·.opktcnt) (·.q) (fun s => s.Stores) where
  enque := fun s arrival => s.toMyred.enque_opktcnt arrival.1 arrival.2
  stored := fun s => s.toMyred.enque_q_ne_nil_iff
  deque := fun _ => rfl
  first := fun _ => rfl

theorem getAvg_opktcnt (s : Pared α) : s.getAvg.opktcnt = s.opktcnt := by
  unfold getAvg
  dsimp only
  split_ifs <;> rfl

theorem command_opktcnt {name : MyredCommand} (other : name ≠ .output) (s : Pared α) : (s.command name).1.opktcnt = s.opktcnt := by
  cases name with
  | totalpkt => rfl
  | getAvg => exact s.getAvg_opktcnt
  | output => exact absurd rfl other

end Pared

section Throughput

variable (pktcnt : ℕ) (maxp pertime : ℚ) (blocked unblock : Bool) (calls : List (Input (ℕ × α) MyredCommand)) {outs : List (Output MyredAnswer α)}

/-- At each `putTp` the counter is what was handed over since the one before, exactly if no call asked an empty queue for a packet. -/
theorem opktcnt_eq_handed_iff :
    (∀ s last : Queue (Myred α), Since Myred.discipline ⟨.make pktcnt maxp pertime, blocked, unblock⟩ .output s calls →
        (machine Myred.discipline).run s calls = some (last, outs) →
        (last.discipline.opktcnt = (handovers outs).length ↔
          (machine Myred.discipline).Along (Serves (fun t => t.q) fun t => t.Stores) s calls)) ∧
      (∀ s last : Queue (Ared α), Since Ared.discipline ⟨.make pktcnt maxp pertime, blocked, unblock⟩ .output s calls →
        (machine Ared.discipline).run s calls = some (last, outs) →
        (last.discipline.opktcnt = (handovers outs).length ↔
          (machine Ared.discipline).Along (Serves (fun t => t.q) fun t => t.Stores) s calls)) ∧
      ∀ s last : Queue (Pared α), Since Pared.discipline ⟨.make pktcnt maxp pertime, blocked, unblock⟩ .output s calls →
        (machine Pared.discipline).run s calls = some (last, outs) →
        (last.discipline.opktcnt = (handovers outs).length ↔
          (machine Pared.discipline).Along (Serves (fun t => t.q) fun t => t.Stores) s calls) :=
  ⟨fun _ _ since run => Myred.counting.since rfl (fun _ => rfl) (fun _ other => Myred.command_opktcnt other) since run,
    fun _ _ since run => Ared.counting.since rfl (fun _ => rfl) (fun _ other => Ared.command_opktcnt other) since run,
    fun _ _ since run => Pared.counting.since rfl (fun _ => rfl) (fun _ other => Pared.command_opktcnt other) since run⟩

end Throughput

/-- One packet goes through. -/
theorem opktcnt_eq_handed_iff_sample :
    (∃ last outs, (machine Myred.discipline).run ⟨.make 0 (1 / 10) 1, false, true⟩ [.recv (0, 7)] = some (last, outs) ∧
        last.discipline.opktcnt = (handovers outs).length) ∧
      (∃ last outs, (machine Ared.discipline).run ⟨.make 0 (1 / 10) 1, false, true⟩ [.recv (0, 7)] = some (last, outs) ∧
        last.discipline.opktcnt = (handovers outs).length) ∧
      ∃ last outs, (machine Pared.discipline).run ⟨.make 0 (1 / 10) 1, false, true⟩ [.recv (0, 7)] = some (last, outs) ∧
        last.discipline.opktcnt = (handovers outs).length := by
  have kept : (Myred.make 0 (1 / 10) 1 : Myred ℕ).Stores (0, 7) := ⟨by decide, .inl (by decide +kernel)⟩
  obtain ⟨myred, ared, pared⟩ := opktcnt_eq_handed_iff 0 (1 / 10) 1 false true [.recv (0, 7)]
  exact ⟨⟨_, _, rfl, (myred _ _ ⟨.inl rfl, by simp⟩ rfl).mpr (Machine.along_singleton (.inr (.inr kept)))⟩,
    ⟨_, _, rfl, (ared _ _ ⟨.inl rfl, by simp⟩ rfl).mpr (Machine.along_singleton (.inr (.inr kept)))⟩,
    ⟨_, _, rfl, (pared _ _ ⟨.inl rfl, by simp⟩ rfl).mpr (Machine.along_singleton (.inr (.inr kept)))⟩⟩

/-- The link is idle again after one packet, and finds the queue empty. -/
theorem idle_resume_counted :
    (∃ last outs, (machine Myred.discipline).run ⟨.make 0 (1 / 10) 1, false, true⟩ [.recv (0, 7), .resume] = some (last, outs) ∧
        last.discipline.opktcnt = 2 ∧ handovers outs = [7]) ∧
      (∃ last outs, (machine Ared.discipline).run ⟨.make 0 (1 / 10) 1, false, true⟩ [.recv (0, 7), .resume] = some (last, outs) ∧
        last.discipline.opktcnt = 2 ∧ handovers outs = [7]) ∧
      ∃ last outs, (machine Pared.discipline).run ⟨.make 0 (1 / 10) 1, false, true⟩ [.recv (0, 7), .resume] = some (last, outs) ∧
        last.discipline.opktcnt = 2 ∧ handovers outs = [7] :=
  ⟨⟨_, _, rfl, by decide +kernel, by decide +kernel⟩, ⟨_, _, rfl, by decide +kernel, by decide +kernel⟩,
    ⟨_, _, rfl, by decide +kernel, by decide +kernel⟩⟩

namespace Pared

theorem step_pktcntPers (s : Queue (Pared α)) (i : Input (ℕ × α) MyredCommand) :
    (step discipline s i).1.discipline.pktcntPers = s.discipline.pktcntPers + (arrivals [i]).length := by
  cases i with
  | recv arrival =>
    change (recv discipline s arrival).1.discipline.pktcntPers = s.discipline.pktcntPers + 1
    unfold recv
    dsimp only
    split
    · rfl
    · split <;> rfl
  | resume =>
    change (resume discipline s).1.discipline.pktcntPers = s.discipline.pktcntPers
    unfold resume
    dsimp only
    split <;> rfl
  | command name =>
    cases name with
    | totalpkt => rfl
    | getAvg =>
      change s.discipline.getAvg.pktcntPers = s.discipline.pktcntPers
      unfold getAvg
      dsimp only
      split_ifs <;> rfl
    | output => rfl

/-- No call rebases the counter of `getLevel`. -/
theorem run_pktcntPers (s : Queue (Pared α)) (calls : List (Input (ℕ × α) MyredCommand)) :
    ∃ last outs, (machine discipline).run s calls = some (last, outs) ∧
      last.discipline.pktcntPers = s.discipline.pktcntPers + (arrivals calls).length := by
  induction calls generalizing s with
  | nil => exact ⟨s, [], rfl, rfl⟩
  | cons i calls ih =>
    have taken : (machine discipline).step s i = some ((step discipline s i).1, (step discipline s i).2) := rfl
    obtain ⟨last, outs, run, counted⟩ := ih (step discipline s i).1
    refine ⟨last, (step discipline s i).2 :: outs, by rw [Machine.run_cons taken, run]; rfl, ?_⟩
    have total : (arrivals (i :: calls)).length = (arrivals [i]).length + (arrivals calls).length := by
      rw [← List.length_append, ← arrivals_append, List.singleton_append]
    rw [counted, step_pktcntPers, total, Nat.add_assoc]

theorem pktcntPers_of_run {s last : Queue (Pared α)} {calls : List (Input (ℕ × α) MyredCommand)} {outs : List (Output MyredAnswer α)}
    (run : (machine discipline).run s calls = some (last, outs)) :
    last.discipline.pktcntPers = s.discipline.pktcntPers + (arrivals calls).length := by
  obtain ⟨final, all, same, counted⟩ := run_pktcntPers s calls
  cases Option.some.inj (run.symm.trans same)
  exact counted

theorem deviation_nonneg : 0 ≤ D1 := by decide +kernel

variable {before before' interval interval' : List (Input (ℕ × α) MyredCommand)} {outs outs' : List (Output MyredAnswer α)}
  {last last' : Queue (Pared α)}

/-- Two runs with the same arrivals in their last intervals end at the same level exactly if no bound of the table lies between
the numbers of packets that came in the whole runs. -/
theorem getLevel_eq_iff (pktcnt : ℕ) (maxp pertime : ℚ) (blocked unblock : Bool) (agree : arrivals interval = arrivals interval')
    (run : (machine discipline).run ⟨.make pktcnt maxp pertime, blocked, unblock⟩ (before ++ interval) = some (last, outs))
    (run' : (machine discipline).run ⟨.make pktcnt maxp pertime, blocked, unblock⟩ (before' ++ interval') = some (last', outs')) :
    last.discipline.getLevel = last'.discipline.getLevel ↔
      ∀ k : ℕ, k < 7 → (E1 + ((k : ℚ) - 3) * D1 ≤ ((arrivals before).length + (arrivals interval).length : ℕ) ↔
        E1 + ((k : ℚ) - 3) * D1 ≤ ((arrivals before').length + (arrivals interval).length : ℕ)) := by
  have total : last.discipline.pktcntPers = (arrivals before).length + (arrivals interval).length := by
    rw [pktcntPers_of_run run, arrivals_append, List.length_append]
    exact Nat.zero_add _
  have total' : last'.discipline.pktcntPers = (arrivals before').length + (arrivals interval).length := by
    rw [pktcntPers_of_run run', arrivals_append, List.length_append, agree]
    exact Nat.zero_add _
  unfold getLevel
  rw [total, total']
  exact trafficLevel_eq_iff deviation_nonneg

theorem getLevel_eq_iff_sample : ∃ last last' : Queue (Pared ℕ), ∃ outs outs',
    (machine discipline).run ⟨.make 0 (1 / 10) 1, false, true⟩ [.command .getAvg, .recv (0, 7)] = some (last, outs) ∧
      (machine discipline).run ⟨.make 0 (1 / 10) 1, false, true⟩ [.recv (0, 3), .command .getAvg, .recv (0, 7)] = some (last', outs') ∧
      last.discipline.getLevel = last'.discipline.getLevel := by
  obtain ⟨last, outs, run, -⟩ := run_pktcntPers ⟨.make 0 (1 / 10) 1, false, true⟩ ([] ++ [.command .getAvg, .recv (0, 7)])
  obtain ⟨last', outs', run', -⟩ := run_pktcntPers ⟨.make 0 (1 / 10) 1, false, true⟩ ([.recv (0, 3)] ++ [.command .getAvg, .recv (0, 7)])
  exact ⟨last, last', outs, outs', run, run', (getLevel_eq_iff 0 (1 / 10) 1 false true rfl run run').mpr (by decide +kernel)⟩

/-- After 1500 packets of earlier intervals an interval without arrivals is of the second level. -/
theorem earlier_arrivals_raise_level : ∃ last last' : Queue (Pared ℕ), ∃ outs outs',
    (machine discipline).run ⟨.make 0 (1 / 10) 1, false, true⟩ ([] ++ [.command .getAvg]) = some (last, outs) ∧
      (machine discipline).run ⟨.make 0 (1 / 10) 1, false, true⟩ (List.replicate 1500 (.recv (0, 7)) ++ [.command .getAvg]) = some (last', outs') ∧
      last.discipline.getLevel = 1 ∧ last'.discipline.getLevel = 2 := by
  obtain ⟨last, outs, run, counted⟩ := run_pktcntPers (⟨.make 0 (1 / 10) 1, false, true⟩ : Queue (Pared ℕ)) ([] ++ [.command .getAvg])
  obtain ⟨last', outs', run', counted'⟩ :=
    run_pktcntPers ⟨.make 0 (1 / 10) 1, false, true⟩ (List.replicate 1500 (.recv (0, 7)) ++ [.command .getAvg])
  have none : last.discipline.pktcntPers = 0 := counted
  have many : last'.discipline.pktcntPers = 1500 := by
    rw [counted', arrivals_append, arrivals_replicate, List.length_append, List.length_replicate]
    rfl
  refine ⟨last, last', outs, outs', run, run', ?_, ?_⟩
  · unfold getLevel
    rw [none]
    decide +kernel
  · unfold getLevel
    rw [many]
    decide +kernel

end Pared

end Ns2
