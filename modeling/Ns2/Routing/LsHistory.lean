import Ns2.Library.Machine
import Ns2.Routing.LsFlooding

namespace Ns2

namespace LsMessageHistory

/-- One message after the other. The answer says whether it was new. -/
def machine : Machine LsMessageHistory LsMessage Bool :=
  ⟨fun history msg => some ((history.isNewMessage msg).2, (history.isNewMessage msg).1)⟩

/-- The history once `msg` is the last message of its originator. -/
def holding (history : LsMessageHistory) (msg : LsMessage) : LsMessageHistory :=
  history.set msg.originNodeId msg.sequenceNumber

/-- The messages of `origin` are numbered one after the other, the first with the successor of `last`. -/
def Numbered (origin : ℕ) : U32 → List LsMessage → Prop
  | _, [] => True
  | last, msg :: rest =>
    if msg.originNodeId = origin then msg.sequenceNumber = last + 1 ∧ Numbered origin (last + 1) rest
    else Numbered origin last rest

instance Numbered.decidable (origin : ℕ) : ∀ last msgs, Decidable (Numbered origin last msgs)
  | _, [] => isTrue trivial
  | last, msg :: rest =>
    have := Numbered.decidable origin (last + 1) rest
    have := Numbered.decidable origin last rest
    inferInstanceAs (Decidable (if msg.originNodeId = origin then msg.sequenceNumber = last + 1 ∧ Numbered origin (last + 1) rest
      else Numbered origin last rest))

/-- The messages come in and every one of `origin` is new. -/
def LetsIn (history : LsMessageHistory) (origin : ℕ) (msgs : List LsMessage) : Prop :=
  ∃ last news, machine.run history msgs = some (last, news) ∧
    List.Forall₂ (fun msg new => msg.originNodeId = origin → new = true) msgs news

variable {history : LsMessageHistory} {msg : LsMessage} {origin : ℕ} {last seq : U32}

/-- A number that passes the test against the one that is held. -/
def Newer (last seq : U32) : Prop := last < seq ∨ LS_WRAPAROUND_THRESHOLD < last - seq

/-- The second disjunct only matters where the subtraction does not wrap. -/
theorem newer_iff : Newer last seq ↔ last.val < seq.val ∨ seq.val + 2 ^ 30 < last.val := by
  have gap := Fin.val_sub last seq
  have threshold : LS_WRAPAROUND_THRESHOLD.val = 2 ^ 30 := rfl
  rw [Newer, Fin.lt_def, Fin.lt_def, gap, threshold]
  have below := last.isLt
  have inside := seq.isLt
  constructor
  · rintro (above | far)
    · exact Or.inl above
    · omega
  · rintro (above | far)
    · exact Or.inl above
    · exact Or.inr (by omega)

/-- Up to three quarters of the range ahead, around its end too. -/
theorem newer_ahead {d : U32} (positive : 0 < d.val) (near : d.val < 3 * 2 ^ 30) : Newer last (last + d) := by
  rw [newer_iff, Fin.val_add]
  have below := last.isLt
  omega

theorem newer_succ (last : U32) : Newer last (last + 1) := newer_ahead (by decide) (by decide)

/-- Both of two numbers are newer than the other exactly when they are further apart than the threshold. -/
theorem newer_both_iff {a b : U32} : Newer b a ∧ Newer a b ↔ a.val + 2 ^ 30 < b.val ∨ b.val + 2 ^ 30 < a.val := by
  rw [newer_iff, newer_iff]
  omega

theorem isNewMessage_iff (found : history.find msg.originNodeId = some last) :
    (history.isNewMessage msg).1 = true ↔ Newer last msg.sequenceNumber := by
  unfold isNewMessage Newer
  rw [found]
  dsimp only
  split_ifs with newer
  · exact iff_of_true rfl newer
  · exact iff_of_false id newer

theorem isNewMessage_other (other : msg.originNodeId ≠ origin) : (history.isNewMessage msg).2.find origin = history.find origin := by
  unfold isNewMessage
  split
  · split_ifs
    · rw [SortedMap.find_set, if_neg (Ne.symm other)]
    · rfl
  · rw [SortedMap.find_insert, if_neg (Ne.symm other)]

theorem holding_find : (history.holding msg).find msg.originNodeId = some msg.sequenceNumber := by
  rw [holding, SortedMap.find_set, if_pos rfl]

/-- Consecutive numbers are let in, whatever the others send in between. -/
theorem numbered_letsIn {msgs : List LsMessage} (found : history.find origin = some last) (numbered : Numbered origin last msgs) :
    history.LetsIn origin msgs := by
  induction msgs generalizing history last with
  | nil => exact ⟨history, [], rfl, .nil⟩
  | cons msg msgs ih =>
    have taken : machine.step history msg = some ((history.isNewMessage msg).2, (history.isNewMessage msg).1) := rfl
    unfold Numbered at numbered
    split_ifs at numbered with own
    · obtain ⟨next, onward⟩ := numbered
      have new : (history.isNewMessage msg).1 = true := by
        rw [isNewMessage_iff (own ▸ found), next]
        exact newer_succ last
      have held := LsSystem.isNewMessage_history new
      rw [own, next] at held
      obtain ⟨final, news, run, all⟩ := ih held onward
      exact ⟨final, true :: news, by rw [Machine.run_cons taken, run, new]; rfl, .cons (fun _ => rfl) all⟩
    · have held : (history.isNewMessage msg).2.find origin = some last := by rw [isNewMessage_other own, found]
      obtain ⟨final, news, run, all⟩ := ih held numbered
      exact ⟨final, _, by rw [Machine.run_cons taken, run]; rfl, .cons (fun same => absurd same own) all⟩

/-- Two messages of one originator are ordered, and its successors let in, exactly
when their numbers are no further apart than the threshold. -/
theorem ordered_iff (history : LsMessageHistory) (m n : LsMessage) (same : m.originNodeId = n.originNodeId) :
    (¬(((history.holding n).isNewMessage m).1 = true ∧ ((history.holding m).isNewMessage n).1 = true) ∧
      (∀ next, next.originNodeId = m.originNodeId → next.sequenceNumber = m.sequenceNumber + 1 →
        ((history.holding m).isNewMessage next).1 = true) ∧
      ∀ msgs, Numbered m.originNodeId m.sequenceNumber msgs → (history.holding m).LetsIn m.originNodeId msgs) ↔
    m.sequenceNumber.val ≤ n.sequenceNumber.val + 2 ^ 30 ∧ n.sequenceNumber.val ≤ m.sequenceNumber.val + 2 ^ 30 := by
  have first : ((history.holding n).isNewMessage m).1 = true ↔ Newer n.sequenceNumber m.sequenceNumber :=
    isNewMessage_iff (same ▸ holding_find)
  have second : ((history.holding m).isNewMessage n).1 = true ↔ Newer m.sequenceNumber n.sequenceNumber :=
    isNewMessage_iff (same ▸ holding_find)
  have successor : ∀ next : LsMessage, next.originNodeId = m.originNodeId → next.sequenceNumber = m.sequenceNumber + 1 →
      ((history.holding m).isNewMessage next).1 = true := by
    intro next own number
    have found : (history.holding m).find next.originNodeId = some m.sequenceNumber := by rw [own, holding_find]
    rw [isNewMessage_iff found, number]
    exact newer_succ m.sequenceNumber
  have onward : ∀ msgs, Numbered m.originNodeId m.sequenceNumber msgs → (history.holding m).LetsIn m.originNodeId msgs :=
    fun msgs numbered => numbered_letsIn holding_find numbered
  rw [first, second, newer_both_iff]
  constructor
  · rintro ⟨ordered, -⟩
    omega
  · rintro ⟨above, below⟩
    exact ⟨by omega, successor, onward⟩

/-- The last odd number before the wrap and the first after it, as `newMessage` hands them out. -/
def beforeWrap : LsMessage := ⟨.lsa, 4294967295, 4294967295, 3, .null⟩
def afterWrap : LsMessage := ⟨.lsa, 1, 1, 3, .null⟩

theorem wrap_unordered : LsMessageCenter.after beforeWrap.sequenceNumber = afterWrap.sequenceNumber ∧
    ((holding .empty beforeWrap).isNewMessage afterWrap).1 = true ∧ ((holding .empty afterWrap).isNewMessage beforeWrap).1 = true := by
  decide

theorem ordered_iff_sample : ¬(((holding .empty afterWrap).isNewMessage ⟨.lsa, 3, 3, 3, .null⟩).1 = true ∧
    ((holding .empty ⟨.lsa, 3, 3, 3, .null⟩).isNewMessage afterWrap).1 = true) := by
  have exact := (ordered_iff .empty ⟨.lsa, 3, 3, 3, .null⟩ afterWrap rfl).mpr (by decide)
  exact exact.1

end LsMessageHistory

end Ns2
