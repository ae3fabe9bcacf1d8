import Ns2.Sctp.Receiver
import Ns2.Sctp.TsnSet
import Mathlib.Data.List.Sort

namespace Ns2

/-- `AppData_S` of a message for an ordered stream. -/
structure SctpMessage where
  streamId : ℕ
  numBytes : ℕ

/-- The counters that `GenChunk` numbers DATA chunks with: `uiNextTsn`, and `usNextStreamSeqNum`
of every outgoing stream. -/
structure SctpNumbering where
  nextTsn : ℕ
  outStreams : List ℕ

namespace SctpNumbering

open SctpReceiver (succInt succShort)

def make (numOutStreams : ℕ) : SctpNumbering := ⟨0, List.replicate numOutStreams 0⟩

def dataChunkHdrSize : ℕ := 16

/-- `GenChunk` for an ordered message. -/
def genDataChunk (s : SctpNumbering) (message : SctpMessage) : Option (SctpNumbering × SctpDataChunk) :=
  s.outStreams[message.streamId]?.map fun seqNum =>
    (⟨succInt s.nextTsn, s.outStreams.set message.streamId (succShort seqNum)⟩,
      ⟨succInt s.nextTsn, message.streamId, seqNum, (message.numBytes + dataChunkHdrSize) % 2 ^ 16, false⟩)

def machine : Machine SctpNumbering SctpMessage SctpDataChunk := ⟨genDataChunk⟩

end SctpNumbering

/-- The chunks of one stream. -/
def onStream (id : ℕ) (chunks : List SctpDataChunk) : List SctpDataChunk := chunks.filter (·.streamId = id)

/-- Chunks as they are sent: TSNs go up from 1, stream sequence numbers count the chunks of a stream. -/
structure Numbered (sent : List SctpDataChunk) : Prop where
  tsn : ∀ n c, sent[n]? = some c → c.tsn = n + 1
  short : sent.length < 2 ^ 32
  streamSeqNum : ∀ id n c, (onStream id sent)[n]? = some c → c.streamSeqNum = n % 2 ^ 16
  ordered : ∀ c ∈ sent, c.unordered = false

namespace Numbered

variable {sent : List SctpDataChunk} {a b : SctpDataChunk}

theorem bounds (numbered : Numbered sent) (member : a ∈ sent) : 0 < a.tsn ∧ a.tsn < 2 ^ 32 := by
  obtain ⟨n, found⟩ := List.getElem?_of_mem member
  have := (List.getElem?_eq_some_iff.mp found).1
  have := numbered.short
  rw [numbered.tsn n a found]
  omega

/-- Chunks are told apart by their TSNs. -/
theorem eq_of_tsn (numbered : Numbered sent) (left : a ∈ sent) (right : b ∈ sent) (same : a.tsn = b.tsn) : a = b := by
  obtain ⟨n, found⟩ := List.getElem?_of_mem left
  obtain ⟨k, found'⟩ := List.getElem?_of_mem right
  rw [numbered.tsn n a found, numbered.tsn k b found'] at same
  cases Nat.succ_injective same
  exact Option.some.inj (found.symm.trans found')

theorem increasing (numbered : Numbered sent) : sent.Pairwise fun a b => a.tsn < b.tsn :=
  List.pairwise_iff_getElem.mpr fun i j first second less => by
    rw [numbered.tsn i _ (List.getElem?_eq_getElem first), numbered.tsn j _ (List.getElem?_eq_getElem second)]
    omega

theorem nodup (numbered : Numbered sent) : sent.Nodup :=
  numbered.increasing.imp fun less same => by
    cases same
    exact lt_irrefl _ less

theorem onStream_nodup (numbered : Numbered sent) (id : ℕ) : (onStream id sent).Nodup := numbered.nodup.filter _

end Numbered

theorem mem_onStream {id : ℕ} {sent : List SctpDataChunk} {chunk : SctpDataChunk} :
    chunk ∈ onStream id sent ↔ chunk ∈ sent ∧ chunk.streamId = id := by
  simp [onStream]

namespace SctpNumbering

open SctpReceiver (succInt succShort)

/-- The counters after `sent`. -/
structure Counts (sent : List SctpDataChunk) (s : SctpNumbering) : Prop where
  nextTsn : s.nextTsn = sent.length
  outStreams : ∀ id n, s.outStreams[id]? = some n → n = (onStream id sent).length % 2 ^ 16

variable {s next : SctpNumbering} {sent : List SctpDataChunk} {message : SctpMessage} {chunk : SctpDataChunk}

theorem onStream_append (id : ℕ) (sent : List SctpDataChunk) (chunk : SctpDataChunk) :
    onStream id (sent ++ [chunk]) = if chunk.streamId = id then onStream id sent ++ [chunk] else onStream id sent := by
  unfold onStream
  rw [List.filter_append, List.filter_singleton]
  split_ifs with same <;> simp [same]

theorem getElem?_concat {α : Type*} {l : List α} {a b : α} {n : ℕ} (found : (l ++ [a])[n]? = some b) :
    l[n]? = some b ∨ n = l.length ∧ b = a := by
  rcases Nat.lt_or_ge n l.length with before | last
  · rw [List.getElem?_append_left before] at found
    exact Or.inl found
  · rw [List.getElem?_append_right last, List.getElem?_singleton] at found
    split_ifs at found with first
    exact Or.inr ⟨by omega, (Option.some.inj found).symm⟩

theorem Counts.genDataChunk (counts : Counts sent s) (numbered : Numbered sent) (room : sent.length + 1 < 2 ^ 32)
    (made : genDataChunk s message = some (next, chunk)) : Counts (sent ++ [chunk]) next ∧ Numbered (sent ++ [chunk]) := by
  obtain ⟨seqNum, stream, same⟩ := Option.map_eq_some_iff.mp made
  cases same
  have tsn : succInt s.nextTsn = sent.length + 1 := by rw [counts.nextTsn, SctpReceiver.succInt, Nat.mod_eq_of_lt room]
  have number := counts.outStreams _ _ stream
  refine ⟨⟨by rw [List.length_append]; exact tsn, fun id n found => ?_⟩, fun n c found => ?_, by simpa using room,
    fun id n c found => ?_, fun c member => ?_⟩
  · rw [onStream_append]
    dsimp only at found ⊢
    rw [List.getElem?_set] at found
    split_ifs at found ⊢ with here bound
    · cases Option.some.inj found
      subst here
      rw [number, List.length_append, List.length_singleton, SctpReceiver.succShort, Nat.mod_add_mod]
    · exact counts.outStreams id n found
  · rcases getElem?_concat found with old | ⟨last, rfl⟩
    · exact numbered.tsn n c old
    · rw [last]
      exact tsn
  · rw [onStream_append] at found
    dsimp only at found
    split_ifs at found with here
    · rcases getElem?_concat found with old | ⟨last, rfl⟩
      · exact numbered.streamSeqNum id n c old
      · subst here last
        exact number
    · exact numbered.streamSeqNum id n c found
  · rcases List.mem_append.mp member with old | new
    · exact numbered.ordered c old
    · cases List.mem_singleton.mp new
      rfl

/-- What a run of `GenChunk` gives is numbered as it should be. -/
theorem run_numbered {numOutStreams : ℕ} {messages : List SctpMessage} (few : messages.length < 2 ^ 32)
    (run : machine.run (make numOutStreams) messages = some (next, sent)) : Numbered sent := by
  have step : ∀ (s : SctpNumbering) (outs : List SctpDataChunk) (i : SctpMessage) (next : SctpNumbering) (out : SctpDataChunk),
      (outs.length < 2 ^ 32 → Counts outs s ∧ Numbered outs) → machine.step s i = some (next, out) →
        (outs ++ [out]).length < 2 ^ 32 → Counts (outs ++ [out]) next ∧ Numbered (outs ++ [out]) := by
    intro s outs i next out holds made room
    rw [List.length_append, List.length_singleton] at room
    obtain ⟨counts, numbered⟩ := holds (by omega)
    exact counts.genDataChunk numbered room made
  have start : ([] : List SctpDataChunk).length < 2 ^ 32 → Counts [] (make numOutStreams) ∧ Numbered [] := by
    refine fun _ => ⟨⟨rfl, fun id n found => ?_⟩, by simp, by simp, by simp [onStream], by simp⟩
    rw [make, List.getElem?_replicate] at found
    split_ifs at found
    exact (Option.some.inj found).symm
  exact (Machine.run_kept_logged step start run (by rwa [List.nil_append, Machine.run_length run])).2

end SctpNumbering

namespace SctpReceiver

/-- The bytes that chunks take up of a receiver window. -/
def bytes (chunks : List SctpDataChunk) : ℕ := (chunks.map SctpDataChunk.length).sum

theorem bytes_append (left right : List SctpDataChunk) : bytes (left ++ right) = bytes left + bytes right := by
  simp [bytes]

variable {f : ℕ → SctpDataChunk} {had : Set ℕ} {m n cumAck : ℕ} {ks : List ℕ} {stream : SctpInStream}

/-- Message `n` of the stream is the chunk `f n`. -/
def CountsSeqNums (f : ℕ → SctpDataChunk) : Prop := ∀ n, (f n).streamSeqNum = n % 2 ^ 16

/-- The order that a stream buffer keeps, in terms of the numbers of the messages. -/
def SeqNumLT (j k : ℕ) : Prop := j % 2 ^ 16 < k % 2 ^ 16

/-- The messages of `had` have arrived, those before `m` were handed to the upper layer,
and the others wait in the buffer. -/
structure StreamHolds (f : ℕ → SctpDataChunk) (had : Set ℕ) (m : ℕ) (stream : SctpInStream) : Prop where
  next : stream.nextStreamSeqNum = m % 2 ^ 16
  buffer : ∃ ks : List ℕ, stream.bufferedChunkList = ks.map f ∧ ks.Pairwise SeqNumLT ∧ ∀ k, k ∈ ks ↔ k ∈ had ∧ m ≤ k
  below : ∀ k < m, k ∈ had
  missing : m ∉ had
  window : ∀ k ∈ had, k < m + 2 ^ 15

/-- Where `InsertInStreamBuffer` puts message `n`. -/
theorem insertInStreamBuffer_map (counts : CountsSeqNums f) (sorted : ks.Pairwise SeqNumLT)
    (apart : ∀ k ∈ ks, k % 2 ^ 16 ≠ n % 2 ^ 16) :
    ∃ ks' : List ℕ, insertInStreamBuffer (f n) (ks.map f) = ks'.map f ∧ ks'.Pairwise SeqNumLT ∧ ks'.Perm (n :: ks) := by
  induction ks with
  | nil => exact ⟨[n], rfl, List.pairwise_singleton _ _, List.Perm.refl _⟩
  | cons k ks ih =>
    obtain ⟨later, rest⟩ := List.pairwise_cons.mp sorted
    have different := apart k List.mem_cons_self
    rw [List.map_cons, insertInStreamBuffer, counts n, counts k]
    by_cases early : n % 2 ^ 16 ≤ k % 2 ^ 16
    · rw [if_pos early, if_pos different]
      have first : n % 2 ^ 16 < k % 2 ^ 16 := lt_of_le_of_ne early different.symm
      exact ⟨n :: k :: ks, rfl, List.pairwise_cons.mpr ⟨List.forall_mem_cons.mpr ⟨first, fun j member =>
        first.trans (later j member)⟩, sorted⟩, List.Perm.refl _⟩
    · obtain ⟨ks', same, ordered, perm⟩ := ih rest fun j member => apart j (List.mem_cons_of_mem k member)
      rw [if_neg early]
      refine ⟨k :: ks', by rw [same, List.map_cons], List.pairwise_cons.mpr ⟨fun j member => ?_, ordered⟩,
        (perm.cons k).trans (List.Perm.swap n k ks)⟩
      rcases List.mem_cons.mp (perm.mem_iff.mp member) with rfl | old
      · exact not_le.mp early
      · exact later j old

/-- The loop of `UpdateAllStreams` on messages from `m` on that come before the next wrap of the
sequence number: it takes the run of messages that begins with `m`. -/
theorem updateStreamFrom_run (cumAck : ℕ) (counts : CountsSeqNums f) {block : ℕ} (first : block * 2 ^ 16 ≤ m)
    (inside : ∀ k ∈ ks, m ≤ k ∧ k < block * 2 ^ 16 + 2 ^ 16) (sorted : ks.Pairwise SeqNumLT) :
    ∃ (count : ℕ) (rest : List ℕ), ks = List.range' m count ++ rest ∧ m + count ∉ ks ∧
      updateStreamFrom cumAck .reliable (m % 2 ^ 16) (ks.map f) =
        (⟨.reliable, (m + count) % 2 ^ 16, rest.map f⟩, (List.range' m count).map f) := by
  induction ks generalizing m with
  | nil => exact ⟨0, [], rfl, List.not_mem_nil, rfl⟩
  | cons k ks ih =>
    obtain ⟨later, ordered⟩ := List.pairwise_cons.mp sorted
    obtain ⟨⟨low, high⟩, others⟩ := List.forall_mem_cons.mp inside
    rw [List.map_cons, updateStreamFrom, if_neg (by simp), counts k]
    by_cases due : k % 2 ^ 16 = m % 2 ^ 16
    · have same : k = m := by omega
      subst same
      obtain ⟨count, rest, split, stops, done⟩ := ih (m := k + 1) (by omega) (fun j member => by
        have := later j member
        have := others j member
        unfold SeqNumLT at *
        omega) ordered
      rw [if_pos due, succShort, Nat.mod_add_mod, done]
      refine ⟨count + 1, rest, by rw [split, List.range'_succ]; rfl, ?_, by rw [List.range'_succ, Nat.add_right_comm]; rfl⟩
      rw [show k + (count + 1) = k + 1 + count by omega, List.mem_cons, not_or]
      exact ⟨by omega, stops⟩
    · rw [if_neg due]
      refine ⟨0, k :: ks, rfl, ?_, rfl⟩
      rw [Nat.add_zero, List.mem_cons, not_or]
      refine ⟨fun same => due (congrArg (· % 2 ^ 16) same).symm, fun member => ?_⟩
      have := later m member
      unfold SeqNumLT at this
      omega

namespace StreamHolds

theorem ahead (holds : StreamHolds f had m stream) {k : ℕ} (member : k ∈ had) (late : m ≤ k) : m < k ∧ k < m + 2 ^ 15 :=
  ⟨lt_of_le_of_ne late fun same => holds.missing (same ▸ member), holds.window k member⟩

/-- What waits in the buffer can not be handed up. -/
theorem updateStream_eq (holds : StreamHolds f had m stream) (counts : CountsSeqNums f)
    (reliable : stream.mode = .reliable ∨ had = ∅) : updateStream cumAck stream = (stream, []) := by
  obtain ⟨ks, buffer, _, members⟩ := holds.buffer
  obtain ⟨mode, next, chunks⟩ := stream
  cases buffer
  unfold updateStream
  cases ks with
  | nil => rfl
  | cons k ks =>
    obtain ⟨member, late⟩ := (members k).mp List.mem_cons_self
    have ahead := holds.ahead member late
    have next : next = m % 2 ^ 16 := holds.next
    have mode : mode = .reliable := reliable.resolve_right fun none => Set.notMem_empty k (none ▸ member)
    dsimp only
    rw [List.map_cons, updateStreamFrom, if_neg (by simp [mode]), counts k, if_neg (by omega)]

/-- A message that is not the next one waits. -/
theorem early (holds : StreamHolds f had m stream) (counts : CountsSeqNums f) (reliable : stream.mode = .reliable)
    (new : n ∉ had) (later : n ≠ m) (window : n < m + 2 ^ 15) :
    ∃ after, updateStream cumAck { stream with bufferedChunkList := insertInStreamBuffer (f n) stream.bufferedChunkList } =
        (after, []) ∧ StreamHolds f (insert n had) m after ∧ after.mode = .reliable ∧
      bytes after.bufferedChunkList = (f n).length + bytes stream.bufferedChunkList := by
  obtain ⟨ks, buffer, sorted, members⟩ := holds.buffer
  have due : m ≤ n := not_lt.mp fun before => new (holds.below n before)
  obtain ⟨ks', inserted, ordered, perm⟩ := insertInStreamBuffer_map (n := n) counts sorted fun k member => by
    obtain ⟨inside, late⟩ := (members k).mp member
    have := holds.ahead inside late
    have : k ≠ n := fun same => new (same ▸ inside)
    omega
  have after : StreamHolds f (insert n had) m { stream with bufferedChunkList := ks'.map f } := by
    refine ⟨holds.next, ⟨ks', rfl, ordered, fun k => ?_⟩, fun k before => Or.inr (holds.below k before), ?_, ?_⟩
    · rw [perm.mem_iff, List.mem_cons, members, Set.mem_insert_iff, or_and_right]
      exact or_congr_left (iff_self_and.mpr fun same => same ▸ due)
    · rintro (same | member)
      · exact later same.symm
      · exact holds.missing member
    · rintro k (rfl | member)
      · exact window
      · exact holds.window k member
  rw [buffer, inserted]
  refine ⟨_, after.updateStream_eq counts (Or.inl reliable), after, reliable, ?_⟩
  rw [bytes, bytes, List.map_map, List.map_map, (perm.map _).sum_eq, List.map_cons, List.sum_cons]
  rfl

/-- The next message is handed up, and all that it held back, unless the buffer
holds messages from after a wrap of the sequence number. -/
theorem due (holds : StreamHolds f had m stream) (counts : CountsSeqNums f) (reliable : stream.mode = .reliable)
    (orderly : ∀ waiting ∈ stream.bufferedChunkList, (f m).streamSeqNum ≤ waiting.streamSeqNum) :
    ∃ after count, updateStream cumAck
        { stream with bufferedChunkList := insertInStreamBuffer (f m) stream.bufferedChunkList } =
        (after, (List.range' m count).map f) ∧ StreamHolds f (insert m had) (m + count) after ∧ after.mode = .reliable ∧
      bytes after.bufferedChunkList + bytes ((List.range' m count).map f) = (f m).length + bytes stream.bufferedChunkList := by
  obtain ⟨ks, buffer, sorted, members⟩ := holds.buffer
  have ahead : ∀ k ∈ ks, m < k ∧ k < m + 2 ^ 15 ∧ m % 2 ^ 16 ≤ k % 2 ^ 16 := fun k member => by
    obtain ⟨inside, late⟩ := (members k).mp member
    have small := orderly (f k) (buffer ▸ List.mem_map_of_mem member)
    rw [counts, counts] at small
    exact ⟨(holds.ahead inside late).1, (holds.ahead inside late).2, small⟩
  obtain ⟨ks', inserted, ordered, perm⟩ := insertInStreamBuffer_map (n := m) counts sorted fun k member => by
    have := ahead k member
    omega
  have present : ∀ k, k ∈ ks' ↔ k ∈ insert m had ∧ m ≤ k := fun k => by
    rw [perm.mem_iff, List.mem_cons, members, Set.mem_insert_iff, or_and_right]
    exact or_congr_left (iff_self_and.mpr fun same => same.ge)
  obtain ⟨count, rest, split, stops, done⟩ := updateStreamFrom_run cumAck counts (Nat.div_mul_le_self m (2 ^ 16))
    (fun k member => by
      rcases List.mem_cons.mp (perm.mem_iff.mp member) with rfl | old
      · omega
      · have := ahead k old
        omega) ordered
  have distinct : (List.range' m count ++ rest).Nodup := split ▸ ordered.imp fun less same => by
    cases same
    exact lt_irrefl _ less
  have after : StreamHolds f (insert m had) (m + count) ⟨.reliable, (m + count) % 2 ^ 16, rest.map f⟩ := by
    refine ⟨rfl, ⟨rest, rfl, ordered.sublist (split ▸ List.sublist_append_right _ _), fun k => ?_⟩, fun k before => ?_,
      fun member => stops ((present _).mpr ⟨member, Nat.le_add_right m count⟩), ?_⟩
    · constructor
      · intro member
        obtain ⟨arrived, late⟩ := (present k).mp (split ▸ List.mem_append_right _ member)
        refine ⟨arrived, not_lt.mp fun run => ?_⟩
        exact (List.nodup_append.mp distinct).2.2 k (List.mem_range'_1.mpr ⟨late, run⟩) k member rfl
      · rintro ⟨arrived, late⟩
        have member : k ∈ List.range' m count ++ rest :=
          split ▸ (present k).mpr ⟨arrived, (Nat.le_add_right m count).trans late⟩
        exact (List.mem_append.mp member).resolve_left fun run => absurd (List.mem_range'_1.mp run).2 (not_lt.mpr late)
    · rcases Nat.lt_or_ge k m with old | run
      · exact Or.inr (holds.below k old)
      · exact ((present k).mp (split ▸ List.mem_append_left _ (List.mem_range'_1.mpr ⟨run, before⟩))).1
    · rintro k (rfl | member)
      · omega
      · have := holds.window k member
        omega
  have total : bytes (ks'.map f) = (f m).length + bytes stream.bufferedChunkList := by
    rw [buffer, bytes, bytes, List.map_map, List.map_map, (perm.map _).sum_eq, List.map_cons, List.sum_cons]
    rfl
  refine ⟨_, count, ?_, after, rfl, ?_⟩
  · rw [buffer, inserted, updateStream]
    dsimp only
    rw [reliable, holds.next, done]
  · rw [← total, split, List.map_append, bytes_append, Nat.add_comm]

/-- One new message of a reliable stream. -/
theorem insert (holds : StreamHolds f had m stream) (counts : CountsSeqNums f) (reliable : stream.mode = .reliable)
    (new : n ∉ had) (window : n < m + 2 ^ 15)
    (orderly : (f n).streamSeqNum = stream.nextStreamSeqNum →
      ∀ waiting ∈ stream.bufferedChunkList, (f n).streamSeqNum ≤ waiting.streamSeqNum) :
    ∃ after count, updateStream cumAck
        { stream with bufferedChunkList := insertInStreamBuffer (f n) stream.bufferedChunkList } =
        (after, (List.range' m count).map f) ∧ StreamHolds f (insert n had) (m + count) after ∧ after.mode = .reliable ∧
      bytes after.bufferedChunkList + bytes ((List.range' m count).map f) = (f n).length + bytes stream.bufferedChunkList := by
  by_cases next : n = m
  · subst next
    exact holds.due counts reliable (orderly (by rw [counts, holds.next]))
  · obtain ⟨after, done, kept, mode, total⟩ := holds.early counts reliable new next window
    exact ⟨after, 0, done, kept, mode, total⟩

end StreamHolds

end SctpReceiver

end Ns2
