import Ns2.Queue.SRRWalk
import Mathlib.Data.List.Count

namespace Ns2.WM

open CyclicScan (turn entry)

section Rounds

variable {s : WM} {weight : ℕ → ℕ} {k q : ℕ}

/-- The number of nodes that one full scan of the sequence of the current order passes. -/
def period (s : WM) : ℕ := ((List.range s.terms).map fun t => (s.block t).length).sum

/-- What is left of the column of the cursor, where that is not the column that
the sequence was at. -/
def delay (s : WM) : ℕ := if s.Settled then 0 else s.rest.length

theorem Sound.ptr_lt (sound : Sound s weight k) (positive : 0 < k) : s.ptr < s.terms := by
  have inside := sound.inside positive
  rw [terms, sound.order]
  omega

theorem Sound.cycle_perm (sound : Sound s weight k) (positive : 0 < k) :
    s.cycle.Perm ((List.range s.terms).flatMap s.block) := by
  rw [← CyclicScan.turn_zero]
  exact CyclicScan.turn_perm (sound.ptr_lt positive)

theorem Sound.cycle_length (sound : Sound s weight k) (positive : 0 < k) : s.cycle.length = s.period := by
  rw [(sound.cycle_perm positive).length_eq, List.length_flatMap]
  rfl

/-- A full scan meets each queue as often as its weight says. -/
theorem Sound.count_cycle (sound : Sound s weight k) (positive : 0 < k) (q : ℕ) : s.cycle.count q = weight q := by
  have small : k ≤ 16 := by
    have fits := sound.fits
    have bound := sound.small
    omega
  have length := WeightSpread.length_terms k
  have values : WeightSpread.terms k = (List.range s.terms).map WSS.value := by
    refine List.ext_getElem? fun t => ?_
    rw [terms, sound.order, List.getElem?_map]
    by_cases inside : t + 1 < 2 ^ k
    · rw [WSS.terms_value small inside, List.getElem?_range (by omega)]
      rfl
    · rw [List.getElem?_eq_none (by omega), List.getElem?_eq_none (by rw [List.length_range]; omega)]
      rfl
  have scan : (List.range s.terms).flatMap s.block = WeightSpread.scan s.wmHead k := by
    rw [WeightSpread.scan, values, List.flatMap_map]
    refine List.flatMap_congr fun t _ => ?_
    rw [block, sound.order]
  rw [(sound.cycle_perm positive).count_eq, scan]
  exact WeightSpread.count_scan (fun i _ => sound.column i q) (sound.weight_lt q)

/-- From the delay on, the queues come round and round. -/
theorem Sound.round (sound : Sound s weight k) (positive : 0 < k) :
    ∃ round : List ℕ, round.Perm s.cycle ∧ ∀ e, entry s.rest s.cycle (s.delay + e) = round[e % round.length]? := by
  by_cases settled : s.Settled
  · obtain ⟨p, c, curr, member⟩ := sound.cursor positive
    have below := sound.ptr_lt positive
    let last := (s.ptr + (s.terms - 1)) % s.terms
    have column : s.block last = s.wmHead c := by
      have weight := settled
      rw [Settled, curr] at weight
      rw [block, ← Option.some.inj weight]
    obtain ⟨front, split, _⟩ := after_split member (sound.nodup c)
    have behind : s.rest = after p (s.wmHead c) := by rw [rest, curr]
    obtain ⟨others, _, here⟩ := CyclicScan.turn_next s.block (show last < s.terms from Nat.mod_lt _ (by omega))
    have on : (last + 1) % s.terms = s.ptr := by
      rw [Nat.mod_add_mod, add_assoc, Nat.sub_add_cancel (by omega), Nat.add_mod_right, Nat.mod_eq_of_lt below]
    rw [on, column, split, ← behind] at here
    have whole : s.cycle = (others ++ (front ++ [p])) ++ s.rest := by
      rw [cycle, here]
      simp
    refine ⟨s.rest ++ (others ++ (front ++ [p])), ?_, fun e => ?_⟩
    · rw [whole]
      exact List.perm_append_comm
    · have none : s.delay = 0 := if_pos settled
      rw [none, zero_add, whole, ← CyclicScan.entry_append]
      have turned := CyclicScan.entry_later [] (s.rest ++ (others ++ (front ++ [p]))) e
      rwa [List.length_nil, zero_add] at turned
  · refine ⟨s.cycle, List.Perm.refl _, fun e => ?_⟩
    rw [delay, if_neg settled]
    exact CyclicScan.entry_later s.rest s.cycle e

theorem Sound.present (sound : Sound s weight k) (positive : 0 < k) (e : ℕ) : ∃ q, entry s.rest s.cycle e = some q ∧ 0 < weight q := by
  induction e generalizing s with
  | zero =>
    obtain ⟨t, x, i, _, _, _, member, same⟩ := sound.next positive one_ne_zero
    refine ⟨x, same 0, Nat.pos_of_ne_zero fun none => ?_⟩
    have bit := sound.mem.mp member
    rw [none, Nat.zero_testBit] at bit
    cases bit
  | succ e ih =>
    obtain ⟨t, x, i, _, after, _, _, same⟩ := sound.next positive one_ne_zero
    rw [same, CyclicScan.entry_succ]
    exact ih after

end Rounds

section Runs

variable {s : WM} {weight : ℕ → ℕ} {k q n : ℕ}

theorem Sound.step_next (sound : Sound s weight k) (positive : 0 < k) {bytecnt : ℤ} (bytes : bytecnt ≠ 0) : ∃ t x,
    machine.step s (.next bytecnt) = some (t, some x) ∧ Sound t weight k ∧
      ∀ e, entry s.rest s.cycle e = entry (x :: t.rest) t.cycle e := by
  obtain ⟨t, x, i, taken, after, _, _, same⟩ := sound.next positive bytes
  exact ⟨t, x, Option.map_eq_some_iff.mpr ⟨_, taken, rfl⟩, after, same⟩

/-- The answers of calls for the next node that follow each other. -/
theorem Sound.nexts (sound : Sound s weight k) (positive : 0 < k) {bytecnt : ℤ} (bytes : bytecnt ≠ 0) (n : ℕ) :
    ∃ t, machine.run s (List.replicate n (.next bytecnt)) = some (t, (List.range n).map (entry s.rest s.cycle)) := by
  induction n generalizing s with
  | zero => exact ⟨s, rfl⟩
  | succ n ih =>
    obtain ⟨mid, x, taken, after, same⟩ := sound.step_next positive bytes
    obtain ⟨t, run⟩ := ih after
    refine ⟨t, ?_⟩
    have first : entry s.rest s.cycle 0 = some x := same 0
    have later : ∀ e, entry s.rest s.cycle (e + 1) = entry mid.rest mid.cycle e := fun e => by
      rw [same, CyclicScan.entry_succ]
    rw [List.replicate_succ, Machine.run_cons taken, run, List.range_succ_eq_map, List.map_cons, List.map_map, first]
    simp only [Option.map_some, Function.comp_def, Nat.succ_eq_add_one, later]

/-- What the answers say, of a matrix with these weights: from the delay on
they repeat after a full scan, and each scan serves every queue as often as
its weight says. -/
structure Share (s : WM) (weight : ℕ → ℕ) (answers : List (Option ℕ)) : Prop where
  present : ∀ a ∈ answers, ∃ q, a = some q ∧ 0 < weight q
  periodic : ∀ e, s.delay ≤ e → e + s.period < answers.length → answers[e + s.period]? = answers[e]?
  share : ∀ e, s.delay ≤ e → e + s.period ≤ answers.length → ∀ q, ((answers.drop e).take s.period).count (some q) = weight q

theorem Sound.share (sound : Sound s weight k) (positive : 0 < k) (n : ℕ) :
    Share s weight ((List.range n).map (entry s.rest s.cycle)) := by
  obtain ⟨round, perm, walk⟩ := sound.round positive
  have length : round.length = s.period := perm.length_eq.trans (sound.cycle_length positive)
  have value : ∀ e < n, ((List.range n).map (entry s.rest s.cycle))[e]? = some (entry s.rest s.cycle e) := fun e below => by
    rw [List.getElem?_map, List.getElem?_range below]
    rfl
  refine ⟨fun a member => ?_, fun e late bound => ?_, fun e late bound q => ?_⟩
  · obtain ⟨e, _, rfl⟩ := List.mem_map.mp member
    exact sound.present positive e
  · obtain ⟨e, rfl⟩ := Nat.exists_eq_add_of_le late
    rw [List.length_map, List.length_range] at bound
    rw [value _ bound, value _ (by omega), add_assoc, walk, walk, ← length, Nat.add_mod_right]
  · obtain ⟨e, rfl⟩ := Nat.exists_eq_add_of_le late
    rw [List.length_map, List.length_range] at bound
    have window : (((List.range n).map (entry s.rest s.cycle)).drop (s.delay + e)).take s.period =
        (List.range round.length).map fun i => round[(e + i) % round.length]? := by
      refine List.ext_getElem? fun i => ?_
      by_cases inside : i < s.period
      · rw [List.getElem?_take_of_lt inside, List.getElem?_drop, value _ (by omega), add_assoc, walk, List.getElem?_map,
          List.getElem?_range (by omega)]
        rfl
      · rw [List.getElem?_eq_none (by rw [List.length_take]; omega), List.getElem?_eq_none (by rw [List.length_map, List.length_range]; omega)]
    rw [window, (CyclicScan.round_perm round e).count_eq, List.count_map_of_injective _ _ (Option.some_injective ℕ),
      perm.count_eq, sound.count_cycle positive]

/-- The weights of the queues in the matrix. -/
def weigh (weight : ℕ → ℕ) : Call → ℕ → ℕ
  | .add queueid w => Function.update weight queueid w
  | .del queueid => Function.update weight queueid 0
  | _ => weight

def weights (calls : List Call) : ℕ → ℕ := calls.foldl weigh fun _ => 0

/-- A rate within the orders, a queue that is not in the matrix, with a weight
within its columns, a queue that is, and no search in an empty matrix. -/
def Call.Proper (s : WM) : Call → Prop
  | .setrate success => 0 < success ∧ success < 2 ^ WSS.maxOrder
  | .add queueid w => s.pRowHead queueid = [] ∧ 0 < w ∧ w < 2 ^ (s.maxColumn + 1)
  | .del queueid => s.pRowHead queueid ≠ []
  | .next bytecnt => bytecnt ≠ 0 → s.pwmCurr ≠ none

instance (s : WM) : ∀ call, Decidable (Call.Proper s call)
  | .setrate _ => inferInstanceAs (Decidable (_ ∧ _))
  | .add _ _ => inferInstanceAs (Decidable (_ ∧ _))
  | .del _ => inferInstanceAs (Decidable (_ ≠ _))
  | .next _ => inferInstanceAs (Decidable (_ → _))

theorem make_sound : Sound make (fun _ => 0) 0 := by
  refine ⟨⟨fun i q => ?_, fun q i => ?_, rfl, nofun, fun i _ => rfl, rfl, fun some => absurd some (lt_irrefl 0), fun _ => rfl⟩,
    Nat.zero_le _, Nat.zero_le _, fun some => absurd some (lt_irrefl 0), fun _ => rfl⟩
  · rw [Nat.zero_testBit]
    rfl
  · rw [Nat.zero_testBit]
    exact ⟨fun member => absurd member List.not_mem_nil, nofun⟩

theorem orderLoop_le {i n order bound : ℕ} (small : i < 2 ^ bound) (below : order ≤ bound) : orderLoop i n order ≤ bound := by
  induction n generalizing order with
  | zero => exact below
  | succ n ih =>
    unfold orderLoop
    split_ifs with more
    · refine ih (Nat.succ_le_of_lt (lt_of_not_ge fun same => ?_))
      have power := Nat.pow_le_pow_right two_pos same
      omega
    · exact below

theorem Sound.setrate (sound : Sound s weight k) {success : ℕ} (small : success < 2 ^ WSS.maxOrder) :
    ∃ t, s.setrate success = some t ∧ Sound t weight k := by
  have bound : getOrder success ≤ 15 := by
    have loop := orderLoop_le (n := success + 1) small (Nat.zero_le _)
    unfold getOrder
    have sixteen : WSS.maxOrder = 16 := rfl
    omega
  have most := sound.small
  have fits := sound.fits
  have matrix := sound.toMatrix
  have admitted : ∀ m, k ≤ m + 1 → m ≤ 15 → Sound { s with maxColumn := m } weight k := fun m low high =>
    ⟨⟨matrix.column, matrix.row, matrix.level, matrix.top, matrix.above, matrix.flag, matrix.cursor, matrix.nowhere⟩, low, high,
      sound.inside, sound.start⟩
  by_cases more : (s.maxColumn : ℤ) < getOrder success
  · have written : s.setrate success = some { s with maxColumn := (getOrder success).toNat } := by
      simp only [WM.setrate, if_pos more]
      exact if_neg (show ¬ (getOrder success).toNat > 15 by omega)
    exact ⟨_, written, admitted _ (by omega) (by omega)⟩
  · have written : s.setrate success = some s := by
      simp only [WM.setrate, if_neg more]
      exact if_neg (show ¬ s.maxColumn > 15 by omega)
    exact ⟨s, written, sound⟩

theorem Matrix.row_nil (matrix : Matrix s weight k) (q : ℕ) : s.pRowHead q = [] ↔ weight q = 0 := by
  constructor
  · intro none
    refine Nat.zero_of_testBit_eq_false fun i => Bool.eq_false_of_not_eq_true fun set => ?_
    have member := (matrix.row q i).mpr set
    rw [none] at member
    exact absurd member List.not_mem_nil
  · intro none
    refine List.eq_nil_iff_forall_not_mem.mpr fun i member => ?_
    have set := (matrix.row q i).mp member
    rw [none, Nat.zero_testBit] at set
    cases set

theorem Sound.step (sound : Sound s weight k) (call : Call) (proper : call.Proper s) :
    ∃ t out, machine.step s call = some (t, out) ∧ ∃ k', Sound t (weigh weight call) k' := by
  cases call with
  | setrate success =>
    obtain ⟨t, taken, after⟩ := sound.setrate proper.2
    exact ⟨t, none, Option.map_eq_some_iff.mpr ⟨t, taken, rfl⟩, k, after⟩
  | add queueid w =>
    obtain ⟨t, k', taken, after⟩ := sound.add ((sound.row_nil queueid).mp proper.1) proper.2.1 proper.2.2
    exact ⟨t, none, Option.map_eq_some_iff.mpr ⟨t, taken, rfl⟩, k', after⟩
  | del queueid =>
    obtain ⟨t, k', taken, after⟩ := sound.del fun none => proper ((sound.row_nil queueid).mpr none)
    exact ⟨t, none, Option.map_eq_some_iff.mpr ⟨t, taken, rfl⟩, k', after⟩
  | next bytecnt =>
    by_cases bytes : bytecnt = 0
    · exact ⟨s, none, Option.map_eq_some_iff.mpr ⟨(s, none), if_pos bytes, rfl⟩, k, sound⟩
    · have positive : 0 < k := Nat.pos_of_ne_zero fun none => proper bytes (sound.nowhere none)
      obtain ⟨t, x, taken, after, _⟩ := sound.step_next positive bytes
      exact ⟨t, some x, taken, k, after⟩

theorem run_sound {calls : List Call} (proper : machine.Along Call.Proper make calls) :
    ∃ s outs, machine.run make calls = some (s, outs) ∧ ∃ k, Sound s (weights calls) k := by
  have kept : ∀ s weight call, (∃ k, Sound s weight k) → Call.Proper s call → ∃ next out,
      machine.step s call = some (next, out) ∧ ∃ k, Sound next (weigh weight call) k := by
    rintro s weight call ⟨k, sound⟩ proper
    exact sound.step call proper
  exact Machine.run_tracked kept ⟨0, make_sound⟩ proper

/-- Whatever led to the matrix: as long as it stays, calls for the next node
share the service out by weight, from the end of the column of the cursor on. -/
theorem service_share (calls : List Call) (proper : machine.Along Call.Proper make calls) : ∃ s outs,
    machine.run make calls = some (s, outs) ∧ ((∃ q, weights calls q ≠ 0) → ∀ bytecnt ≠ 0, ∀ n, ∃ t answers,
      machine.run s (List.replicate n (.next bytecnt)) = some (t, answers) ∧ Share s (weights calls) answers) := by
  obtain ⟨s, outs, run, k, sound⟩ := run_sound proper
  refine ⟨s, outs, run, fun ⟨q, present⟩ bytecnt bytes n => ?_⟩
  have positive : 0 < k := Nat.pos_of_ne_zero fun none => by
    have bound := sound.weight_lt q
    rw [none, pow_zero] at bound
    omega
  obtain ⟨t, nexts⟩ := sound.nexts positive bytes n
  exact ⟨t, _, nexts, sound.share positive n⟩

end Runs

/-- Two queues of weight 1, a cursor at the first of them, and a queue of weight 2. -/
def sampleCalls : List Call := [.setrate 3, .add 1 1, .add 3 1, .next 1, .add 2 2]

theorem service_share_sample : ∃ s outs, machine.run make sampleCalls = some (s, outs) ∧
    ((∃ q, weights sampleCalls q ≠ 0) → ∀ bytecnt ≠ 0, ∀ n, ∃ t answers,
      machine.run s (List.replicate n (.next bytecnt)) = some (t, answers) ∧ Share s (weights sampleCalls) answers) :=
  service_share sampleCalls (by decide +kernel)

/-- The rest of the column of the cursor comes before the first scan: of the
first four answers two are for queue 1, and the fifth is not the first again. -/
theorem rest_of_column : ¬ ∀ calls, machine.Along Call.Proper make calls → ∀ s outs, machine.run make calls = some (s, outs) →
    (∃ q, weights calls q ≠ 0) → ∀ n t answers, machine.run s (List.replicate n (.next 1)) = some (t, answers) →
      ∀ e, e + s.period < n → answers[e + s.period]? = answers[e]? := by
  intro claim
  have proper : machine.Along Call.Proper make sampleCalls := by decide +kernel
  have period : (machine.run make sampleCalls).map (fun next => next.1.period) = some 4 := by decide +kernel
  have whole : (machine.run make (sampleCalls ++ List.replicate 5 (.next 1))).map (fun next => next.2.drop 5) =
      some [some 1, some 3, some 1, some 2, some 2] := by decide +kernel
  have length : (machine.run make sampleCalls).map (fun next => next.2.length) = some 5 := by decide +kernel
  obtain ⟨⟨s, outs⟩, run, four⟩ := Option.map_eq_some_iff.mp period
  rw [run] at length
  have five : outs.length = 5 := Option.some.inj length
  rw [Machine.run_append run, Option.map_map] at whole
  obtain ⟨⟨t, answers⟩, rest, dropped⟩ := Option.map_eq_some_iff.mp whole
  have answered : answers = [some 1, some 3, some 1, some 2, some 2] := by
    rw [← dropped, ← five]
    exact List.drop_left.symm
  have four' : s.period = 4 := four
  have same := claim sampleCalls proper s outs run ⟨1, by decide⟩ 5 t answers rest 0 (by rw [four']; decide)
  rw [four', answered] at same
  exact absurd same (by decide)

end Ns2.WM
