import Ns2.Sctp.Streams

namespace Ns2

/-- A receiver of the chunks of `sent`, those of them that it had room for, and what it
has handed to the upper layer, in that order. -/
structure SctpTransfer where
  receiver : SctpReceiver
  arrived : List SctpDataChunk
  delivered : List SctpDataChunk
deriving DecidableEq

namespace SctpTransfer

open SctpReceiver

def make (initialRwnd : ℕ) (modes : List SctpStreamMode) : SctpTransfer := ⟨SctpReceiver.make initialRwnd modes, [], []⟩

def arrive (t : SctpTransfer) (chunk : SctpDataChunk) : Option (SctpTransfer × Unit) :=
  (processDataChunk chunk t.receiver).map fun processed =>
    (⟨processed.1, if chunk.length ≤ t.receiver.myRwnd then t.arrived ++ [chunk] else t.arrived,
      t.delivered ++ processed.2⟩, ())

def machine : Machine SctpTransfer SctpDataChunk Unit := ⟨arrive⟩

/-- The bytes held in the stream buffers. -/
def buffered (streams : List SctpInStream) : ℕ := (streams.map fun stream => SctpReceiver.bytes stream.bufferedChunkList).sum

/-- Message `n` of a stream. -/
def message (sent : List SctpDataChunk) (id n : ℕ) : SctpDataChunk := (onStream id sent).getD n ⟨0, id, n % 2 ^ 16, 0, false⟩

def arrivals (sent : List SctpDataChunk) (arrived : List SctpDataChunk) (id : ℕ) : Set ℕ :=
  {n | ∃ chunk ∈ arrived, (onStream id sent)[n]? = some chunk}

variable {t : SctpTransfer} {sent : List SctpDataChunk} {id n m : ℕ} {chunk : SctpDataChunk} {r : SctpReceiver} {R : Set ℕ}

theorem message_eq (found : (onStream id sent)[n]? = some chunk) : message sent id n = chunk := by
  rw [message, List.getD_eq_getElem?_getD, found, Option.getD_some]

theorem message_streamId : (message sent id n).streamId = id := by
  rw [message, List.getD_eq_getElem?_getD]
  cases found : (onStream id sent)[n]? with
  | none => rfl
  | some chunk => exact of_decide_eq_true (List.mem_filter.mp (List.mem_of_getElem? found)).2

theorem message_counts (numbered : Numbered sent) (id : ℕ) : CountsSeqNums (message sent id) := by
  intro n
  rw [message, List.getD_eq_getElem?_getD]
  cases found : (onStream id sent)[n]? with
  | none => rfl
  | some chunk => exact numbered.streamSeqNum id n chunk found

theorem take_messages {count : ℕ} (inside : m + count ≤ (onStream id sent).length) :
    (onStream id sent).take (m + count) = (onStream id sent).take m ++ (List.range' m count).map (message sent id) := by
  rw [List.take_add, List.append_cancel_left_eq]
  refine List.ext_getElem? fun i => ?_
  rw [List.getElem?_take, List.getElem?_drop, List.getElem?_map]
  split_ifs with inRange
  · have found := List.getElem?_eq_getElem (l := onStream id sent) (i := m + i) (by omega)
    rw [List.getElem?_range' inRange, Option.map_some, Nat.one_mul, message_eq found, found]
  · rw [List.getElem?_eq_none (by simpa using inRange), Option.map_none]

theorem foldl_passToUpperLayer (chunks : List SctpDataChunk) {r : SctpReceiver} (room : r.myRwnd + SctpReceiver.bytes chunks < 2 ^ 32) :
    chunks.foldl passToUpperLayer r = { r with myRwnd := r.myRwnd + SctpReceiver.bytes chunks } := by
  induction chunks generalizing r with
  | nil => rfl
  | cons chunk chunks ih =>
    have total : SctpReceiver.bytes (chunk :: chunks) = chunk.length + SctpReceiver.bytes chunks := rfl
    rw [total] at room ⊢
    have small : (r.myRwnd + chunk.length) % 2 ^ 32 = r.myRwnd + chunk.length := Nat.mod_eq_of_lt (by omega)
    rw [List.foldl_cons, passToUpperLayer, small, ih (by dsimp only; omega)]
    simp only [Nat.add_assoc]

/-- `UpdateAllStreams` when one stream alone has something to hand up. -/
theorem updateAllStreams_one {before after : List SctpInStream} {stream : SctpInStream} (split : r.inStreams = before ++ stream :: after)
    (early : ∀ other ∈ before, updateStream r.cumAck other = (other, []))
    (late : ∀ other ∈ after, updateStream r.cumAck other = (other, [])) :
    updateAllStreams r = ((updateStream r.cumAck stream).2.foldl passToUpperLayer
      { r with inStreams := before ++ (updateStream r.cumAck stream).1 :: after }, (updateStream r.cumAck stream).2) := by
  have still : ∀ streams : List SctpInStream, (∀ other ∈ streams, updateStream r.cumAck other = (other, [])) →
      streams.map (updateStream r.cumAck) = streams.map fun other => (other, []) :=
    fun streams same => List.map_congr_left same
  unfold updateAllStreams
  rw [split, List.map_append, List.map_cons, still before early, still after late]
  have nothing : ∀ streams : List SctpInStream, (streams.flatMap fun _ => ([] : List SctpDataChunk)) = [] := fun _ =>
    List.flatMap_eq_nil_iff.mpr fun _ _ => rfl
  simp [List.flatMap_append, List.flatMap_map, Function.comp_def, nothing]

theorem buffered_split (before after : List SctpInStream) (stream : SctpInStream) :
    buffered (before ++ stream :: after) = buffered before + (SctpReceiver.bytes stream.bufferedChunkList + buffered after) := by
  simp [buffered]

theorem split_of_getElem? {α : Type*} {l : List α} {i : ℕ} {a : α} (found : l[i]? = some a) :
    ∃ before after, l = before ++ a :: after ∧ before.length = i := by
  obtain ⟨inside, same⟩ := List.getElem?_eq_some_iff.mp found
  refine ⟨l.take i, l.drop (i + 1), ?_, List.length_take_of_le inside.le⟩
  rw [← same, List.getElem_cons_drop, List.take_append_drop]

theorem getElem?_split_of_ne {α : Type*} {before after : List α} {i : ℕ} (other : i ≠ before.length) (a b : α) :
    (before ++ a :: after)[i]? = (before ++ b :: after)[i]? := by
  rcases Nat.lt_or_ge i before.length with early | late
  · rw [List.getElem?_append_left early, List.getElem?_append_left early]
  · obtain ⟨k, rfl⟩ : ∃ k, i = before.length + (k + 1) := ⟨i - before.length - 1, by omega⟩
    rw [List.getElem?_append_right late, List.getElem?_append_right late, Nat.add_sub_cancel_left, List.getElem?_cons_succ,
      List.getElem?_cons_succ]

theorem onStream_concat (id : ℕ) (left right : List SctpDataChunk) :
    onStream id (left ++ right) = onStream id left ++ onStream id right := List.filter_append _ _

theorem onStream_messages (ks : List ℕ) : onStream id (ks.map (message sent id)) = ks.map (message sent id) :=
  List.filter_eq_self.mpr fun chunk member => by
    obtain ⟨k, _, rfl⟩ := List.mem_map.mp member
    exact decide_eq_true message_streamId

theorem onStream_messages_of_ne {other : ℕ} (ne : other ≠ id) (ks : List ℕ) :
    onStream id (ks.map (message sent other)) = [] :=
  List.filter_eq_nil_iff.mpr fun chunk member => by
    obtain ⟨k, _, rfl⟩ := List.mem_map.mp member
    rw [message_streamId]
    simpa using ne

def tsnsOf (arrived : List SctpDataChunk) : Set ℕ := {tsn | ∃ chunk ∈ arrived, chunk.tsn = tsn}

/-- A stream, and what was handed up of it: its first `m` messages. -/
structure StreamState (sent : List SctpDataChunk) (t : SctpTransfer) (id m : ℕ) : Prop where
  delivered : onStream id t.delivered = (onStream id sent).take m
  holds : ∀ stream, t.receiver.inStreams[id]? = some stream →
    StreamHolds (message sent id) (arrivals sent t.arrived id) m stream

structure Holds (sent : List SctpDataChunk) (initialRwnd : ℕ) (modes : List SctpStreamMode) (t : SctpTransfer) : Prop where
  tsns : Arrived (tsnsOf t.arrived) t.receiver
  origin : ∀ chunk ∈ t.arrived, chunk ∈ sent
  highest : ∀ chunk ∈ t.arrived, chunk.tsn ≤ t.receiver.highestRecvTsn
  modes : t.receiver.inStreams.map SctpInStream.mode = modes
  streams : ∀ id, ∃ m, StreamState sent t id m
  rwnd : t.receiver.myRwnd + buffered t.receiver.inStreams = initialRwnd

/-- Every message goes on a stream that is there and is reliable. -/
def OnReliable (modes : List SctpStreamMode) (sent : List SctpDataChunk) : Prop :=
  ∀ chunk ∈ sent, modes[chunk.streamId]? = some .reliable

namespace Holds

variable {initialRwnd : ℕ} {modes : List SctpStreamMode} {stream : SctpInStream}

theorem cumAck_le (holds : Holds sent initialRwnd modes t) : t.receiver.cumAck ≤ t.receiver.highestRecvTsn := by
  rcases holds.tsns.upTo le_rfl with none | ⟨chunk, member, same⟩
  · rw [none]
    exact Nat.zero_le _
  · exact same ▸ holds.highest chunk member

theorem duplicate_iff (holds : Holds sent initialRwnd modes t) (numbered : Numbered sent) (member : chunk ∈ sent) :
    treatsAsDuplicate chunk.tsn t.receiver ↔ chunk ∈ t.arrived := by
  have known : ¬(t.receiver.highestRecvTsn < chunk.tsn ∧ chunk.tsn ≤ t.receiver.cumAck) := by
    have := holds.cumAck_le
    omega
  rw [treatsAsDuplicate_iff holds.tsns (numbered.bounds member).1 known]
  constructor
  · rintro ⟨other, had, same⟩
    exact numbered.eq_of_tsn (holds.origin other had) member same ▸ had
  · exact fun had => ⟨chunk, had, rfl⟩

theorem mode_eq (holds : Holds sent initialRwnd modes t) (there : t.receiver.inStreams[id]? = some stream) :
    modes[id]? = some stream.mode := by
  rw [← holds.modes, List.getElem?_map, there, Option.map_some]

theorem reliable (holds : Holds sent initialRwnd modes t) (onReliable : OnReliable modes sent)
    (there : t.receiver.inStreams[id]? = some stream) : stream.mode = .reliable ∨ arrivals sent t.arrived id = ∅ := by
  by_cases none : arrivals sent t.arrived id = ∅
  · exact Or.inr none
  · obtain ⟨n, chunk, arrived, found⟩ := Set.nonempty_iff_ne_empty.mpr none
    obtain ⟨member, rfl⟩ := mem_onStream.mp (List.mem_of_getElem? found)
    have mode := onReliable chunk member
    rw [holds.mode_eq there] at mode
    exact Or.inl (Option.some.inj mode)

/-- No stream has anything to hand up. -/
theorem still (holds : Holds sent initialRwnd modes t) (numbered : Numbered sent) (onReliable : OnReliable modes sent)
    (there : t.receiver.inStreams[id]? = some stream) (cumAck : ℕ) : updateStream cumAck stream = (stream, []) := by
  obtain ⟨m, state⟩ := holds.streams id
  exact (state.holds stream there).updateStream_eq (message_counts numbered id) (holds.reliable onReliable there)

/-- Nothing was stored. -/
theorem unchanged (holds : Holds sent initialRwnd modes t) {r : SctpReceiver} (same : SameTsns t.receiver r)
    (streams : r.inStreams = t.receiver.inStreams) (rwnd : r.myRwnd = t.receiver.myRwnd) {arrived : List SctpDataChunk}
    (members : ∀ chunk, chunk ∈ arrived ↔ chunk ∈ t.arrived) : Holds sent initialRwnd modes ⟨r, arrived, t.delivered⟩ := by
  have tsns : tsnsOf arrived = tsnsOf t.arrived := by
    ext tsn
    simp only [tsnsOf, members]
  have sets : ∀ id, arrivals sent arrived id = arrivals sent t.arrived id := fun id => by
    ext n
    simp only [arrivals, members]
  refine ⟨tsns ▸ holds.tsns.same same, fun chunk member => holds.origin chunk ((members chunk).mp member),
    fun chunk member => same.highest ▸ holds.highest chunk ((members chunk).mp member), streams ▸ holds.modes, fun id => ?_,
    streams ▸ rwnd ▸ holds.rwnd⟩
  obtain ⟨m, state⟩ := holds.streams id
  exact ⟨m, state.delivered, fun stream there => sets id ▸ state.holds stream (streams ▸ there)⟩

end Holds

theorem tsnsOf_append (arrived : List SctpDataChunk) (chunk : SctpDataChunk) :
    tsnsOf (arrived ++ [chunk]) = insert chunk.tsn (tsnsOf arrived) := by
  ext tsn
  simp [tsnsOf, or_and_right, exists_or, or_comm, eq_comm]

theorem arrivals_append (numbered : Numbered sent) (arrived : List SctpDataChunk)
    (found : (onStream chunk.streamId sent)[n]? = some chunk) (id : ℕ) :
    arrivals sent (arrived ++ [chunk]) id =
      if id = chunk.streamId then insert n (arrivals sent arrived id) else arrivals sent arrived id := by
  have place : ∀ k, (onStream id sent)[k]? = some chunk ↔ id = chunk.streamId ∧ k = n := fun k => by
    constructor
    · intro there
      have here := (mem_onStream.mp (List.mem_of_getElem? there)).2
      subst here
      have inside := (List.getElem?_eq_some_iff.mp there).1
      exact ⟨rfl, (List.getElem?_inj inside (numbered.onStream_nodup _)).mp (there.trans found.symm)⟩
    · rintro ⟨rfl, rfl⟩
      exact found
  ext k
  have members : k ∈ arrivals sent (arrived ++ [chunk]) id ↔ k ∈ arrivals sent arrived id ∨ id = chunk.streamId ∧ k = n := by
    rw [← place]
    simp [arrivals, or_and_right, exists_or]
  rw [members]
  split_ifs with here
  · rw [Set.mem_insert_iff, and_iff_right here, or_comm]
  · rw [or_iff_left fun other => here other.1]

/-- Fewer than 2 ^ 15 messages of the stream are outstanding: what was sent earlier has arrived. -/
def Windowed (sent : List SctpDataChunk) (t : SctpTransfer) (chunk : SctpDataChunk) : Prop :=
  ∀ earlier ∈ (onStream chunk.streamId sent).take ((onStream chunk.streamId sent).idxOf chunk + 1 - 2 ^ 15),
    earlier ∈ t.arrived

/-- A new chunk is not the next one of its stream while the stream buffer holds one with
a smaller sequence number, from after the next wrap of it. -/
def Orderly (t : SctpTransfer) (chunk : SctpDataChunk) : Prop :=
  chunk.length ≤ t.receiver.myRwnd → chunk ∉ t.arrived → ∀ stream ∈ t.receiver.inStreams[chunk.streamId]?,
    chunk.streamSeqNum = stream.nextStreamSeqNum → ∀ waiting ∈ stream.bufferedChunkList,
      chunk.streamSeqNum ≤ waiting.streamSeqNum

theorem idxOf_eq {l : List SctpDataChunk} (nodup : l.Nodup) (found : l[n]? = some chunk) : l.idxOf chunk = n := by
  have least := List.idxOf_lt_length_of_mem (List.mem_of_getElem? found)
  refine (List.getElem?_inj least nodup).mp ?_
  rw [found, List.getElem?_eq_getElem least, List.getElem_idxOf]

theorem Windowed.lt (windowed : Windowed sent t chunk) (found : (onStream chunk.streamId sent)[n]? = some chunk)
    (numbered : Numbered sent) (missing : m ∉ arrivals sent t.arrived chunk.streamId) : n < m + 2 ^ 15 := by
  have inside := (List.getElem?_eq_some_iff.mp found).1
  have place := idxOf_eq (numbered.onStream_nodup _) found
  by_contra far
  obtain ⟨earlier, there⟩ : ∃ earlier, (onStream chunk.streamId sent)[m]? = some earlier :=
    ⟨_, List.getElem?_eq_getElem (by omega)⟩
  refine missing ⟨earlier, windowed earlier ?_, there⟩
  rw [place]
  exact List.mem_of_getElem? (i := m) (by rw [List.getElem?_take_of_lt (by omega), there])

/-- What `ProcessDataChunk` does with a new chunk for a stream, when the other streams have nothing to hand up. -/
theorem acceptChunk_one {before after : List SctpInStream} {stream : SctpInStream} (arrived : Arrived R r)
    (short : chunk.tsn < 2 ^ 32) (fresh : chunk.tsn ∉ insert 0 R) (high : chunk.tsn ≤ r.highestRecvTsn)
    (ordered : chunk.unordered = false) (split : r.inStreams = before ++ stream :: after)
    (here : before.length = chunk.streamId) (still : ∀ other ∈ before ++ after, ∀ cumAck, updateStream cumAck other = (other, [])) :
    ∃ newCum blocks, Arrived (insert chunk.tsn R) { r with cumAck := newCum, recvTsnBlockList := blocks } ∧
      ∀ last passed, updateStream newCum
          { stream with bufferedChunkList := insertInStreamBuffer chunk stream.bufferedChunkList } = (last, passed) →
        acceptChunk chunk r = some (passed.foldl passToUpperLayer
          { r with
            myRwnd := r.myRwnd - chunk.length, cumAck := newCum, recvTsnBlockList := blocks,
            inStreams := before ++ last :: after }, passed) := by
  have debited : Arrived R { r with myRwnd := r.myRwnd - chunk.length } := arrived.same ⟨rfl, rfl, rfl, rfl⟩
  obtain ⟨newCum, blocks, updated, put⟩ := debited.updateRecvTsnBlocks short fresh (Or.inl high)
  refine ⟨newCum, blocks, put.same ⟨rfl, rfl, rfl, rfl⟩, fun last passed done => ?_⟩
  have there : r.inStreams[chunk.streamId]? = some stream := by
    rw [split, ← here, List.getElem?_append_right le_rfl, Nat.sub_self, List.getElem?_cons_zero]
  let stored : SctpInStream := { stream with bufferedChunkList := insertInStreamBuffer chunk stream.bufferedChunkList }
  have placed : r.inStreams.set chunk.streamId stored = before ++ stored :: after := by
    rw [split, ← here, List.set_append_right _ _ le_rfl, Nat.sub_self, List.set_cons_zero]
  unfold acceptChunk
  rw [updated, Option.bind_eq_bind, Option.bind_some, passToStream, if_neg (by simp [ordered])]
  dsimp only
  rw [there, Option.map_some, placed, Option.bind_eq_bind, Option.bind_some]
  rw [updateAllStreams_one rfl (fun other member => still other (List.mem_append_left _ member) newCum)
    (fun other member => still other (List.mem_append_right _ member) newCum)]
  dsimp only
  rw [done]
  rfl

/-- A new chunk that finds room. -/
theorem Holds.accept {initialRwnd : ℕ} {modes : List SctpStreamMode} (holds : Holds sent initialRwnd modes t)
    (numbered : Numbered sent) (onReliable : OnReliable modes sent) (small : initialRwnd < 2 ^ 32) (member : chunk ∈ sent)
    (windowed : Windowed sent t chunk) (orderly : Orderly t chunk) (fits : chunk.length ≤ t.receiver.myRwnd)
    (new : chunk ∉ t.arrived) :
    ∃ r passed, acceptChunk chunk { t.receiver with highestRecvTsn := max t.receiver.highestRecvTsn chunk.tsn } = some (r, passed) ∧
      Holds sent initialRwnd modes ⟨r, t.arrived ++ [chunk], t.delivered ++ passed⟩ := by
  obtain ⟨n, found⟩ : ∃ n, (onStream chunk.streamId sent)[n]? = some chunk :=
    List.getElem?_of_mem (mem_onStream.mpr ⟨member, rfl⟩)
  obtain ⟨stream, there, mode⟩ : ∃ stream, t.receiver.inStreams[chunk.streamId]? = some stream ∧ stream.mode = .reliable := by
    have mode := onReliable chunk member
    rw [← holds.modes, List.getElem?_map] at mode
    exact Option.map_eq_some_iff.mp mode
  obtain ⟨before, after, split, here⟩ := split_of_getElem? there
  have still : ∀ other ∈ before ++ after, ∀ cumAck, updateStream cumAck other = (other, []) := fun other inside cumAck => by
    have within : other ∈ t.receiver.inStreams := by
      rw [split, List.mem_append, List.mem_cons]
      exact (List.mem_append.mp inside).imp_right Or.inr
    obtain ⟨id, place⟩ := List.getElem?_of_mem within
    exact holds.still numbered onReliable place cumAck
  have fresh : chunk.tsn ∉ insert 0 (tsnsOf t.arrived) := by
    rintro (zero | ⟨other, had, same⟩)
    · exact (numbered.bounds member).1.ne' zero
    · exact new (numbered.eq_of_tsn (holds.origin other had) member same ▸ had)
  obtain ⟨newCum, blocks, put, taken⟩ := acceptChunk_one (holds.tsns.raise chunk.tsn) (numbered.bounds member).2 fresh
    (le_max_right _ _) (numbered.ordered chunk member) split here still
  obtain ⟨m, state⟩ := holds.streams chunk.streamId
  have waits := state.holds stream there
  have notYet : n ∉ arrivals sent t.arrived chunk.streamId := by
    rintro ⟨other, had, place⟩
    exact new (Option.some.inj (place.symm.trans found) ▸ had)
  obtain ⟨last, count, done, kept, lastMode, total⟩ := waits.insert (message_counts numbered chunk.streamId) mode notYet
    (windowed.lt found numbered waits.missing) (by
      rw [message_eq found]
      exact orderly fits new stream there)
  rw [message_eq found] at done total
  have rwnd := holds.rwnd
  rw [split, buffered_split] at rwnd
  have credited := foldl_passToUpperLayer ((List.range' m count).map (message sent chunk.streamId))
    (r := { t.receiver with
      highestRecvTsn := max t.receiver.highestRecvTsn chunk.tsn, myRwnd := t.receiver.myRwnd - chunk.length, cumAck := newCum,
      recvTsnBlockList := blocks, inStreams := before ++ last :: after })
    (by dsimp only; omega)
  refine ⟨_, _, (taken last _ done).trans (by rw [credited]), ?_⟩
  have sets := arrivals_append numbered t.arrived found
  refine ⟨by rw [tsnsOf_append]; exact put.same ⟨rfl, rfl, rfl, by simp [split]⟩, ?_, ?_, ?_, fun id => ?_, ?_⟩
  · intro other inside
    rcases List.mem_append.mp inside with old | same
    · exact holds.origin other old
    · exact List.mem_singleton.mp same ▸ member
  · intro other inside
    rcases List.mem_append.mp inside with old | same
    · exact le_max_of_le_left (holds.highest other old)
    · exact List.mem_singleton.mp same ▸ le_max_right _ _
  · rw [← holds.modes, split, List.map_append, List.map_append, List.map_cons, List.map_cons, mode, lastMode]
  · have sets := sets id
    by_cases same : id = chunk.streamId
    · rw [if_pos same] at sets
      subst same
      have inside : m + count ≤ (onStream chunk.streamId sent).length := not_lt.mp fun beyond => by
        obtain ⟨other, _, place⟩ := sets ▸ kept.below _ beyond
        exact absurd (List.getElem?_eq_some_iff.mp place).1 (lt_irrefl _)
      refine ⟨m + count, ?_, fun next place => ?_⟩
      · rw [onStream_concat, state.delivered, onStream_messages, take_messages inside]
      · dsimp only at place
        rw [← here, List.getElem?_append_right le_rfl, Nat.sub_self, List.getElem?_cons_zero] at place
        cases Option.some.inj place
        exact sets ▸ kept
    · rw [if_neg same] at sets
      obtain ⟨k, other⟩ := holds.streams id
      refine ⟨k, ?_, fun next place => ?_⟩
      · rw [onStream_concat, other.delivered, onStream_messages_of_ne (Ne.symm same), List.append_nil]
      · rw [sets]
        refine other.holds next ?_
        rw [split, ← place]
        exact getElem?_split_of_ne (by rwa [here]) _ _
  · dsimp only
    rw [buffered_split]
    omega

/-- One chunk arrives. -/
theorem Holds.arrive {initialRwnd : ℕ} {modes : List SctpStreamMode} (holds : Holds sent initialRwnd modes t)
    (numbered : Numbered sent) (onReliable : OnReliable modes sent) (small : initialRwnd < 2 ^ 32) (member : chunk ∈ sent)
    (windowed : Windowed sent t chunk) (orderly : Orderly t chunk) :
    ∃ next, arrive t chunk = some (next, ()) ∧ Holds sent initialRwnd modes next := by
  unfold SctpTransfer.arrive
  by_cases fits : chunk.length ≤ t.receiver.myRwnd
  case neg =>
    rw [processDataChunk, if_neg fits, if_neg fits]
    refine ⟨_, rfl, ?_⟩
    rw [List.append_nil]
    exact holds.unchanged (r := { t.receiver with sackChunkNeeded := false }) ⟨rfl, rfl, rfl, rfl⟩ rfl rfl fun _ => Iff.rfl
  rw [if_pos fits]
  have duplicate := holds.duplicate_iff numbered member
  by_cases again : chunk ∈ t.arrived
  · rw [processDataChunk_duplicate fits (duplicate.mpr again)]
    refine ⟨_, rfl, ?_⟩
    rw [List.append_nil]
    refine holds.unchanged (r := { t.receiver with
      dupTsnList := insertDuplicateTsn chunk.tsn t.receiver.dupTsnList, sackChunkNeeded := true })
      ⟨rfl, rfl, rfl, rfl⟩ rfl rfl fun other => ?_
    rw [List.mem_append, List.mem_singleton, or_iff_left_of_imp fun same => same ▸ again]
  · obtain ⟨r, passed, taken, after⟩ := holds.accept numbered onReliable small member windowed orderly fits again
    rw [processDataChunk_new fits (mt duplicate.mp again), updateHighestTsn_snd, taken]
    exact ⟨_, rfl, after⟩

end SctpTransfer

end Ns2
