import Ns2.Sctp.Delivery

namespace Ns2

namespace SctpTransfer

open SctpReceiver

variable {t : SctpTransfer} {sent arrivals : List SctpDataChunk} {initialRwnd : ℕ} {modes : List SctpStreamMode}

/-- What an upper layer may rely on: of every stream it has got the longest run of messages
from the first one on that have all arrived, once and in the order they were sent in; what
waits in a buffer waits for a message before it; and the window counts what waits. -/
structure InOrder (sent : List SctpDataChunk) (initialRwnd : ℕ) (t : SctpTransfer) : Prop where
  delivered : ∀ id, onStream id t.delivered = (onStream id sent).takeWhile (· ∈ t.arrived)
  waiting : ∀ id stream, t.receiver.inStreams[id]? = some stream → ∀ chunk ∈ stream.bufferedChunkList,
    ∃ earlier ∈ onStream id sent, earlier.tsn < chunk.tsn ∧ earlier ∉ t.arrived
  rwnd : t.receiver.myRwnd + buffered t.receiver.inStreams = initialRwnd

theorem takeWhile_eq_take {α : Type*} (p : α → Bool) {l : List α} {m : ℕ} (all : ∀ k < m, ∃ a, l[k]? = some a ∧ p a = true)
    (stops : ∀ a, l[m]? = some a → p a = false) : l.takeWhile p = l.take m := by
  induction l generalizing m with
  | nil => simp
  | cons a l ih =>
    cases m with
    | zero => rw [List.takeWhile_cons_of_neg (by simp [stops a rfl]), List.take_zero]
    | succ m =>
      obtain ⟨b, same, holds⟩ := all 0 (Nat.succ_pos m)
      cases Option.some.inj same
      rw [List.takeWhile_cons_of_pos holds, List.take_succ_cons]
      exact congrArg (a :: ·) (ih (fun k less => all (k + 1) (Nat.succ_lt_succ less)) stops)

theorem Holds.onStream_eq_nil (holds : Holds sent initialRwnd modes t) (onReliable : OnReliable modes sent) {id : ℕ}
    (absent : t.receiver.inStreams[id]? = none) : onStream id sent = [] := by
  refine List.eq_nil_iff_forall_not_mem.mpr fun chunk member => ?_
  obtain ⟨inside, rfl⟩ := mem_onStream.mp member
  have mode := onReliable chunk inside
  rw [← holds.modes, List.getElem?_map, absent] at mode
  cases mode

theorem Holds.inOrder (holds : Holds sent initialRwnd modes t) (numbered : Numbered sent) (onReliable : OnReliable modes sent) :
    InOrder sent initialRwnd t where
  delivered id := by
    obtain ⟨m, state⟩ := holds.streams id
    rw [state.delivered]
    cases there : t.receiver.inStreams[id]? with
    | none => rw [holds.onStream_eq_nil onReliable there, List.take_nil, List.takeWhile_nil]
    | some stream =>
      have waits := state.holds stream there
      refine (takeWhile_eq_take _ (fun k less => ?_) fun chunk place => ?_).symm
      · obtain ⟨chunk, arrived, place⟩ := waits.below k less
        exact ⟨chunk, place, decide_eq_true arrived⟩
      · exact decide_eq_false fun arrived => waits.missing ⟨chunk, arrived, place⟩
  waiting id stream there chunk member := by
    obtain ⟨m, state⟩ := holds.streams id
    have waits := state.holds stream there
    obtain ⟨ks, buffer, _, members⟩ := waits.buffer
    rw [buffer] at member
    obtain ⟨k, inside, rfl⟩ := List.mem_map.mp member
    obtain ⟨arrived, late⟩ := (members k).mp inside
    have less := (waits.ahead arrived late).1
    obtain ⟨chunk, _, place⟩ := arrived
    obtain ⟨bound, same⟩ := List.getElem?_eq_some_iff.mp place
    have first := List.getElem?_eq_getElem (l := onStream id sent) (i := m) (by omega)
    refine ⟨_, List.mem_of_getElem? first, ?_, fun had => waits.missing ⟨_, had, first⟩⟩
    rw [message_eq place, ← same]
    exact List.pairwise_iff_getElem.mp (numbered.increasing.sublist List.filter_sublist) m k _ _ less
  rwnd := holds.rwnd

theorem make_holds (sent : List SctpDataChunk) (initialRwnd : ℕ) (modes : List SctpStreamMode) :
    Holds sent initialRwnd modes (make initialRwnd modes) where
  tsns := by
    have none : tsnsOf [] = SctpReceiver.tsnsOf [] := by simp [tsnsOf, SctpReceiver.tsnsOf]
    exact none ▸ make_arrived initialRwnd modes
  origin := by simp [make]
  highest := by simp [make]
  modes := by simp [make, SctpReceiver.make, Function.comp_def]
  streams id := ⟨0, by simp [make, onStream], fun stream there => by
    obtain ⟨mode, _, rfl⟩ : ∃ mode, modes[id]? = some mode ∧ SctpInStream.mk mode 0 [] = stream := by
      rw [make, SctpReceiver.make, List.getElem?_map] at there
      exact Option.map_eq_some_iff.mp there
    exact ⟨rfl, ⟨[], rfl, .nil, by simp [arrivals, make]⟩, by simp, by simp [arrivals, make], by simp [arrivals, make]⟩⟩
  rwnd := by simp [make, SctpReceiver.make, buffered, SctpReceiver.bytes, Function.comp_def]

/-- Whatever is lost, repeated or overtaken on the way, as long as fewer than 2 ^ 15 messages of
a stream are outstanding and no chunk comes in between two sides of a wrap. -/
theorem run_inOrder (numOutStreams : ℕ) (messages : List SctpMessage) (numbering : SctpNumbering) (sent : List SctpDataChunk)
    (initialRwnd : ℕ) (modes : List SctpStreamMode) (arrivals : List SctpDataChunk)
    (sending : SctpNumbering.machine.run (.make numOutStreams) messages = some (numbering, sent))
    (few : messages.length < 2 ^ 32) (onReliable : OnReliable modes sent) (small : initialRwnd < 2 ^ 32)
    (honest : ∀ chunk ∈ arrivals, chunk ∈ sent) (windowed : machine.Along (Windowed sent) (make initialRwnd modes) arrivals)
    (orderly : machine.Along Orderly (make initialRwnd modes) arrivals) :
    ∃ last outs, machine.run (make initialRwnd modes) arrivals = some (last, outs) ∧ InOrder sent initialRwnd last := by
  have numbered := SctpNumbering.run_numbered few sending
  have along := (windowed.and orderly).and (Machine.along_of_forall honest)
  have step : ∀ (t : SctpTransfer) (chunk : SctpDataChunk), Holds sent initialRwnd modes t →
      (Windowed sent t chunk ∧ Orderly t chunk) ∧ chunk ∈ sent →
        ∃ next out, machine.step t chunk = some (next, out) ∧ Holds sent initialRwnd modes next := by
    intro t chunk holds met
    obtain ⟨next, taken, after⟩ := holds.arrive numbered onReliable small met.2 met.1.1 met.1.2
    exact ⟨next, (), taken, after⟩
  obtain ⟨last, outs, run, holds⟩ := Machine.run_invariant step (make_holds sent initialRwnd modes) along
  exact ⟨last, outs, run, holds.inOrder numbered onReliable⟩

instance (sent : List SctpDataChunk) (t : SctpTransfer) (chunk : SctpDataChunk) : Decidable (Windowed sent t chunk) :=
  inferInstanceAs (Decidable (∀ _ ∈ List.take _ _, _))

instance (t : SctpTransfer) (chunk : SctpDataChunk) : Decidable (Orderly t chunk) :=
  inferInstanceAs (Decidable (_ ≤ _ → ¬_ → ∀ stream ∈ t.receiver.inStreams[chunk.streamId]?,
    _ → ∀ waiting ∈ stream.bufferedChunkList, _))

instance (modes : List SctpStreamMode) (sent : List SctpDataChunk) : Decidable (OnReliable modes sent) :=
  inferInstanceAs (Decidable (∀ chunk ∈ sent, _))

theorem run_inOrder_sample :
    let sent : List SctpDataChunk := [⟨1, 0, 0, 20, false⟩, ⟨2, 1, 0, 20, false⟩, ⟨3, 0, 1, 20, false⟩]
    ∃ last outs, machine.run (make 100 [.reliable, .reliable])
      [⟨3, 0, 1, 20, false⟩, ⟨2, 1, 0, 20, false⟩, ⟨3, 0, 1, 20, false⟩, ⟨1, 0, 0, 20, false⟩] = some (last, outs) ∧
        InOrder sent 100 last :=
  run_inOrder 2 [⟨0, 4⟩, ⟨1, 4⟩, ⟨0, 4⟩] ⟨3, [2, 1]⟩ [⟨1, 0, 0, 20, false⟩, ⟨2, 1, 0, 20, false⟩, ⟨3, 0, 1, 20, false⟩] 100
    [.reliable, .reliable] [⟨3, 0, 1, 20, false⟩, ⟨2, 1, 0, 20, false⟩, ⟨3, 0, 1, 20, false⟩, ⟨1, 0, 0, 20, false⟩]
    rfl (by decide) (by decide) (by decide) (by decide) (by decide +kernel) (by decide +kernel)

section Wrap

/-- Message `n` of a single stream. -/
def single (n : ℕ) : SctpDataChunk := ⟨n + 1, 0, n % 2 ^ 16, 20, false⟩

/-- The first `n` messages have come one after the other. -/
def caughtUp (n : ℕ) : SctpTransfer where
  receiver := ⟨100, n, n, [], [], [⟨.reliable, n % 2 ^ 16, []⟩], false⟩
  arrived := (List.range n).map single
  delivered := (List.range n).map single

variable {n : ℕ}

theorem genDataChunk_single (room : n + 1 < 2 ^ 32) :
    SctpNumbering.genDataChunk ⟨n, [n % 2 ^ 16]⟩ ⟨0, 4⟩ = some (⟨n + 1, [(n + 1) % 2 ^ 16]⟩, single n) := by
  simp [SctpNumbering.genDataChunk, SctpNumbering.dataChunkHdrSize, single, succInt_eq room, succShort, Nat.mod_add_mod]

theorem run_single (room : n < 2 ^ 32) :
    SctpNumbering.machine.run (.make 1) (List.replicate n ⟨0, 4⟩) = some (⟨n, [n % 2 ^ 16]⟩, (List.range n).map single) := by
  induction n with
  | zero => rfl
  | succ n ih =>
    have taken : SctpNumbering.machine.step ⟨n, [n % 2 ^ 16]⟩ ⟨0, 4⟩ = _ := genDataChunk_single room
    have step := Machine.run_cons taken []
    rw [List.replicate_succ', Machine.run_append (ih (by omega)), step, List.range_succ, List.map_append]
    rfl

theorem arrive_single (room : n + 1 < 2 ^ 32) : arrive (caughtUp n) (single n) = some (caughtUp (n + 1), ()) := by
  have taken : processDataChunk (single n) (caughtUp n).receiver = some ((caughtUp (n + 1)).receiver, [single n]) := by
    have next : (n + 1) % 4294967296 = n + 1 := Nat.mod_eq_of_lt room
    simp [processDataChunk, caughtUp, single, updateHighestTsn, acceptChunk, updateRecvTsnBlocks, updateTsnBlocksFrom, succInt,
      next, withCumAck, updateCumAck, passToStream, insertInStreamBuffer, updateAllStreams, updateStream, updateStreamFrom,
      passToUpperLayer, succShort, Nat.mod_add_mod]
  rw [arrive, taken]
  simp [caughtUp, single, List.range_succ]

theorem onStream_single (N : ℕ) : onStream 0 ((List.range N).map single) = (List.range N).map single :=
  List.filter_eq_self.mpr fun chunk member => by
    obtain ⟨k, _, rfl⟩ := List.mem_map.mp member
    rfl

theorem single_injective : Function.Injective single := fun _ _ same => Nat.succ_injective (congrArg SctpDataChunk.tsn same)

theorem windowed_single {N : ℕ} (sent : n < N) {t : SctpTransfer} (arrived : ∀ k, k + 2 ^ 15 ≤ n → single k ∈ t.arrived) :
    Windowed ((List.range N).map single) t (single n) := by
  have id : (single n).streamId = 0 := rfl
  have place : ((List.range N).map single).idxOf (single n) = n :=
    idxOf_eq (List.nodup_range.map single_injective) (by rw [List.getElem?_map, List.getElem?_range sent, Option.map_some])
  intro earlier member
  rw [id, onStream_single, place, ← List.map_take, List.take_range] at member
  obtain ⟨k, inside, rfl⟩ := List.mem_map.mp member
  have before := List.mem_range.mp inside
  exact arrived k (by omega)

/-- The messages before `n` come one after the other. -/
theorem run_caughtUp {N : ℕ} (room : n < 2 ^ 32) (sent : n ≤ N) :
    machine.run (make 100 [.reliable]) ((List.range n).map single) = some (caughtUp n, List.replicate n ()) ∧
      machine.Along (Windowed ((List.range N).map single)) (make 100 [.reliable]) ((List.range n).map single) := by
  induction n with
  | zero => exact ⟨rfl, trivial⟩
  | succ n ih =>
    obtain ⟨run, along⟩ := ih (by omega) (by omega)
    have taken : machine.step (caughtUp n) (single n) = _ := arrive_single room
    have step := Machine.run_cons taken []
    rw [List.range_succ, List.map_append]
    refine ⟨?_, along.append run ⟨?_, ?_⟩⟩
    · rw [Machine.run_append run, List.map_singleton, step, List.replicate_succ']
      rfl
    · exact windowed_single (by omega) fun k early => List.mem_map_of_mem (List.mem_range.mpr (by omega))
    · rw [taken]
      trivial

/-- The state when the message after `n` has overtaken it. -/
def overtaken (n : ℕ) : SctpTransfer where
  receiver := ⟨80, n, n + 2, [⟨n + 2, n + 2⟩], [], [⟨.reliable, n % 2 ^ 16, [single (n + 1)]⟩], false⟩
  arrived := (caughtUp n).arrived ++ [single (n + 1)]
  delivered := (caughtUp n).delivered

/-- Message `n` has come, and neither is handed up. -/
def stuck (n : ℕ) : SctpTransfer where
  receiver := ⟨60, n + 2, n + 2, [], [], [⟨.reliable, n % 2 ^ 16, [single (n + 1), single n]⟩], false⟩
  arrived := (overtaken n).arrived ++ [single n]
  delivered := (overtaken n).delivered

theorem arrive_overtaken (room : n + 2 < 2 ^ 32) : arrive (caughtUp n) (single (n + 1)) = some (overtaken n, ()) := by
  have taken : processDataChunk (single (n + 1)) (caughtUp n).receiver = some ((overtaken n).receiver, []) := by
    have next : (n + 1) % 4294967296 = n + 1 := Nat.mod_eq_of_lt (by omega)
    have other : (n + 1) % 65536 ≠ n % 65536 := by omega
    simp [processDataChunk, caughtUp, overtaken, single, updateHighestTsn, acceptChunk, updateRecvTsnBlocks, updateTsnBlocksFrom,
      succInt, next, passToStream, insertInStreamBuffer, updateAllStreams, updateStream, updateStreamFrom, other]
  rw [arrive, taken]
  simp [caughtUp, overtaken, single]

theorem arrive_stuck (room : n + 2 < 2 ^ 32) (last : n % 2 ^ 16 = 65535) :
    arrive (overtaken n) (single n) = some (stuck n, ()) := by
  have taken : processDataChunk (single n) (overtaken n).receiver = some ((stuck n).receiver, []) := by
    have next : (n + 1) % 4294967296 = n + 1 := Nat.mod_eq_of_lt (by omega)
    have high : (n + 2 + 4294967295) % 4294967296 = n + 1 := by omega
    have last : n % 65536 = 65535 := last
    have first : (n + 1) % 65536 = 0 := by omega
    simp [processDataChunk, overtaken, stuck, single, updateHighestTsn, isDuplicateChunk, inTsnBlocks, acceptChunk,
      updateRecvTsnBlocks, updateTsnBlocksFrom, succInt, predInt, next, high, withCumAck, updateCumAck, passToStream,
      insertInStreamBuffer, updateAllStreams, updateStream, updateStreamFrom, last, first]
  rw [arrive, taken]
  simp [overtaken, stuck, single]

theorem not_inOrder_stuck (N : ℕ) : ¬InOrder ((List.range N).map single) 100 (stuck n) := by
  intro inOrder
  obtain ⟨earlier, sent, less, missing⟩ := inOrder.waiting 0 _ rfl (single n) (List.mem_cons_of_mem _ (List.mem_singleton_self _))
  rw [onStream_single] at sent
  obtain ⟨k, _, rfl⟩ := List.mem_map.mp sent
  have before : k < n := Nat.lt_of_succ_lt_succ less
  exact missing (List.mem_append_left _ (List.mem_append_left _ (List.mem_map_of_mem (List.mem_range.mpr before))))

/-- The first message after a wrap overtakes the last one before it: when both have arrived, neither
is handed up. -/
theorem wrap_stuck :
    ∃ numbering sent arrivals last outs,
      SctpNumbering.machine.run (.make 1) (List.replicate (2 ^ 16 + 1) ⟨0, 4⟩) = some (numbering, sent) ∧
        OnReliable [.reliable] sent ∧ (∀ chunk ∈ arrivals, chunk ∈ sent) ∧
        machine.Along (Windowed sent) (make 100 [.reliable]) arrivals ∧
        machine.run (make 100 [.reliable]) arrivals = some (last, outs) ∧ ¬InOrder sent 100 last := by
  obtain ⟨n, bound, last⟩ : ∃ n, n + 2 = 2 ^ 16 + 1 ∧ n % 2 ^ 16 = 65535 := ⟨65535, by omega, by omega⟩
  obtain ⟨run, along⟩ := run_caughtUp (N := n + 2) (by omega) (by omega : n ≤ n + 2)
  have first : machine.step (caughtUp n) (single (n + 1)) = _ := arrive_overtaken (by omega)
  have second : machine.step (overtaken n) (single n) = _ := arrive_stuck (by omega) last
  refine ⟨⟨n + 2, [(n + 2) % 2 ^ 16]⟩, (List.range (n + 2)).map single, (List.range n).map single ++ [single (n + 1), single n],
    stuck n, List.replicate n () ++ [(), ()], ?_, ?_, ?_, along.append run ?_, ?_, not_inOrder_stuck (n + 2)⟩
  · rw [← bound]
    exact run_single (by omega)
  · intro chunk member
    obtain ⟨k, _, rfl⟩ := List.mem_map.mp member
    rfl
  · intro chunk member
    have early : ∀ k < n + 2, single k ∈ (List.range (n + 2)).map single := fun k less =>
      List.mem_map_of_mem (List.mem_range.mpr less)
    rcases List.mem_append.mp member with before | late
    · obtain ⟨k, inside, rfl⟩ := List.mem_map.mp before
      exact early k (by have := List.mem_range.mp inside; omega)
    · rcases List.mem_cons.mp late with rfl | last
      · exact early (n + 1) (by omega)
      · exact List.mem_singleton.mp last ▸ early n (by omega)
  · have had : ∀ k < n, single k ∈ (caughtUp n).arrived := fun k less => List.mem_map_of_mem (List.mem_range.mpr less)
    refine ⟨windowed_single (by omega) fun k early => had k (by omega), ?_⟩
    rw [first]
    refine ⟨windowed_single (by omega) fun k early => List.mem_append_left _ (had k (by omega)), ?_⟩
    rw [second]
    trivial
  · rw [Machine.run_append run, Machine.run_cons_cons first second rfl]
    rfl

end Wrap

end SctpTransfer

end Ns2
