import Mathlib.Data.Prod.Lex
import Mathlib.Data.List.Sort
import Mathlib.Algebra.Order.Ring.Rat
import Ns2.Library.Machine

namespace Ns2

/-- The fields of `Event` that the event queues read. A queue holds its events
itself, so the links `next_` and `prev_` are not kept, and the sign `cancel` and
`dispatch` put on `uid_` is that of an event in no queue. -/
structure Event where
  time : ℚ
  uid : ℤ
deriving DecidableEq, Repr

namespace Event

/-- The order of dispatch: smallest `time_` first, equal times by uid. -/
def key (e : Event) : ℚ ×ₗ ℤ := toLex (e.time, e.uid)

theorem key_injective : Function.Injective key := by
  intro a b same
  cases a
  cases b
  simpa [key] using same

instance : LinearOrder Event := LinearOrder.lift' key key_injective

theorem lt_iff {a b : Event} : a < b ↔ a.time < b.time ∨ a.time = b.time ∧ a.uid < b.uid :=
  Prod.Lex.toLex_lt_toLex

theorem le_iff {a b : Event} : a ≤ b ↔ a.time < b.time ∨ a.time = b.time ∧ a.uid ≤ b.uid :=
  Prod.Lex.toLex_le_toLex

theorem time_le_of_le {a b : Event} (ordered : a ≤ b) : a.time ≤ b.time := by
  rcases le_iff.mp ordered with earlier | ⟨same, _⟩
  · exact earlier.le
  · exact same.le

/-- An event numbered later goes before another only by an earlier time. -/
theorem le_iff_time_lt {a b : Event} (later : b.uid < a.uid) : a ≤ b ↔ a.time < b.time := by
  rw [le_iff]
  constructor
  · rintro (earlier | ⟨_, numbered⟩)
    · exact earlier
    · omega
  · exact Or.inl

theorem le_iff_time_le {a b : Event} (earlier : a.uid < b.uid) : a ≤ b ↔ a.time ≤ b.time := by
  rw [le_iff, le_iff_lt_or_eq (α := ℚ)]
  constructor
  · exact Or.imp_right And.left
  · exact Or.imp_right fun same => ⟨same, earlier.le⟩

end Event

/-- Ordered insertion of an absent event keeps a strictly ordered queue so. -/
theorem orderedInsert_strict {e : Event} {l : List Event} (sorted : l.Pairwise (· < ·))
    (absent : e ∉ l) : (l.orderedInsert (· ≤ ·) e).Pairwise (· < ·) := by
  have weak : (l.orderedInsert (· ≤ ·) e).Pairwise (· ≤ ·) :=
    List.Pairwise.orderedInsert e l (sorted.imp le_of_lt)
  have distinct : (l.orderedInsert (· ≤ ·) e).Nodup := by
    rw [(List.perm_orderedInsert _ e l).nodup_iff, List.nodup_cons]
    exact ⟨absent, sorted.imp ne_of_lt⟩
  exact weak.imp₂ (fun _ _ => lt_of_le_of_ne) distinct

/-- What the simulator and the Tcl interface ask of an event queue. -/
inductive SchedulerOp where
  | insert (e : Event)
  | cancel (e : Event)
  | head
  | deque
deriving DecidableEq, Repr

/-- `ListScheduler`: `queue_` is the list of its events, next one first. -/
structure ListScheduler where
  queue : List Event
deriving DecidableEq, Repr

namespace ListScheduler

/-- The loop of `ListScheduler::insert`: `e` goes before the first event that
is later than it, so behind all events of its own time. -/
def link (e : Event) : List Event → List Event
  | [] => [e]
  | p :: rest => if e.time < p.time then e :: p :: rest else p :: link e rest

def insert (s : ListScheduler) (e : Event) : ListScheduler := ⟨link e s.queue⟩

/-- The loop of `ListScheduler::cancel`, which aborts at the end of the list. -/
def unlink (e : Event) : List Event → Option (List Event)
  | [] => none
  | p :: rest => if p = e then some rest else (unlink e rest).map (p :: ·)

def cancel (s : ListScheduler) (e : Event) : Option ListScheduler :=
  if e.uid ≤ 0 then some s else (unlink e s.queue).map ListScheduler.mk

def head (s : ListScheduler) : Option Event := s.queue.head?

def deque (s : ListScheduler) : ListScheduler × Option Event :=
  match s.queue with
  | [] => (s, none)
  | e :: rest => (⟨rest⟩, some e)

def step (s : ListScheduler) : SchedulerOp → Option (ListScheduler × Option Event)
  | .insert e => some (s.insert e, none)
  | .cancel e => (s.cancel e).map (·, none)
  | .head => some (s, s.head)
  | .deque => some s.deque

/-- The list scheduler as a component run by scheduler operations. -/
def machine : Machine ListScheduler SchedulerOp (Option Event) := ⟨step⟩

def empty : ListScheduler := ⟨[]⟩

/-- What the callers of a scheduler keep to: `Scheduler::schedule` numbers the
events it inserts upwards from 1, and only a queued event is cancelled. -/
def Admissible (s : ListScheduler) : SchedulerOp → Prop
  | .insert e => 0 < e.uid ∧ ∀ x ∈ s.queue, x.uid < e.uid
  | .cancel e => e ∈ s.queue
  | .head => True
  | .deque => True

instance (s : ListScheduler) (op : SchedulerOp) : Decidable (s.Admissible op) := by
  cases op <;> unfold Admissible <;> infer_instance

/-- The least the callers of any scheduler keep to: no event is inserted while
it is queued, and only a queued event is cancelled. -/
def Queueable (s : ListScheduler) : SchedulerOp → Prop
  | .insert e => 0 < e.uid ∧ e ∉ s.queue
  | .cancel e => e ∈ s.queue
  | .head => True
  | .deque => True

instance (s : ListScheduler) (op : SchedulerOp) : Decidable (s.Queueable op) := by
  cases op <;> unfold Queueable <;> infer_instance

theorem Admissible.queueable {s : ListScheduler} {op : SchedulerOp} (admitted : s.Admissible op) :
    s.Queueable op := by
  cases op with
  | insert e => exact ⟨admitted.1, fun member => lt_irrefl _ (admitted.2 e member)⟩
  | cancel e => exact admitted
  | head => trivial
  | deque => trivial

theorem deque_answer (s : ListScheduler) : s.deque.2 = s.head := by
  unfold deque head
  split <;> rename_i queue <;> rw [queue] <;> rfl

theorem link_eq_orderedInsert {e : Event} {l : List Event} (later : ∀ x ∈ l, x.uid < e.uid) :
    link e l = l.orderedInsert (· ≤ ·) e := by
  induction l with
  | nil => rfl
  | cons p rest ih =>
    have above := Event.le_iff_time_lt (later p (List.mem_cons_self ..))
    rw [link, List.orderedInsert_cons, ih fun x member => later x (List.mem_cons_of_mem p member)]
    simp only [above]

/-- Insertion where the earlier and the later events are already apart. -/
theorem link_append {e : Event} {before after : List Event} (early : ∀ x ∈ before, x.time ≤ e.time)
    (late : ∀ x ∈ after, e.time < x.time) : link e (before ++ after) = before ++ e :: after := by
  induction before with
  | nil =>
    cases after with
    | nil => rfl
    | cons p rest => exact if_pos (late p (List.mem_cons_self ..))
  | cons p rest ih =>
    rw [List.cons_append, link, if_neg (not_lt.mpr (early p (List.mem_cons_self ..))),
      ih fun x member => early x (List.mem_cons_of_mem p member)]
    rfl

theorem link_perm (e : Event) (l : List Event) : (link e l).Perm (e :: l) := by
  induction l with
  | nil => rfl
  | cons p rest ih =>
    unfold link
    split
    · rfl
    · exact (ih.cons p).trans (List.Perm.swap e p rest)

theorem unlink_eq_erase {e : Event} {l : List Event} (member : e ∈ l) :
    unlink e l = some (l.erase e) := by
  induction l with
  | nil => simp at member
  | cons p rest ih =>
    unfold unlink
    split
    · rename_i same
      rw [same, List.erase_cons_head]
    · rename_i other
      have later : e ∈ rest := (List.mem_cons.mp member).resolve_left (Ne.symm other)
      rw [ih later, List.erase_cons_tail (by simpa using other)]
      rfl

/-- No event is queued twice, and every queued event counts as queued. -/
structure Distinct (s : ListScheduler) : Prop where
  nodup : s.queue.Nodup
  queued : ∀ e ∈ s.queue, 0 < e.uid

theorem empty_distinct : empty.Distinct := ⟨.nil, by simp [empty]⟩

theorem Distinct.insert {s : ListScheduler} (distinct : s.Distinct) {e : Event}
    (admitted : s.Queueable (.insert e)) : (s.insert e).Distinct where
  nodup := by
    rw [ListScheduler.insert, (link_perm e s.queue).nodup_iff, List.nodup_cons]
    exact ⟨admitted.2, distinct.nodup⟩
  queued x member := by
    rcases List.mem_cons.mp ((link_perm e s.queue).mem_iff.mp member) with rfl | old
    · exact admitted.1
    · exact distinct.queued x old

/-- Cancelling a queued event takes it, and nothing else, off the list. -/
theorem Distinct.cancel {s : ListScheduler} (distinct : s.Distinct) {e : Event} (member : e ∈ s.queue) :
    s.cancel e = some ⟨s.queue.erase e⟩ := by
  have positive := distinct.queued e member
  rw [ListScheduler.cancel, if_neg (by omega), unlink_eq_erase member, Option.map_some]

theorem Distinct.erase {s : ListScheduler} (distinct : s.Distinct) (e : Event) :
    (ListScheduler.mk (s.queue.erase e)).Distinct :=
  ⟨distinct.nodup.erase e, fun x member => distinct.queued x (List.mem_of_mem_erase member)⟩

theorem Distinct.tail {e : Event} {rest : List Event} (distinct : (ListScheduler.mk (e :: rest)).Distinct) :
    (ListScheduler.mk rest).Distinct :=
  ⟨distinct.nodup.of_cons, fun x member => distinct.queued x (List.mem_cons_of_mem e member)⟩

/-- With events numbered upwards the queue is also in dispatch order. -/
structure Ordered (s : ListScheduler) : Prop where
  sorted : s.queue.Pairwise (· < ·)
  queued : ∀ e ∈ s.queue, 0 < e.uid

theorem empty_ordered : empty.Ordered := ⟨.nil, by simp [empty]⟩

theorem Ordered.distinct {s : ListScheduler} (ordered : s.Ordered) : s.Distinct :=
  ⟨ordered.sorted.imp ne_of_lt, ordered.queued⟩

theorem Ordered.insert {s : ListScheduler} (ordered : s.Ordered) {e : Event}
    (admitted : s.Admissible (.insert e)) : (s.insert e).Ordered where
  sorted := by
    rw [ListScheduler.insert, link_eq_orderedInsert admitted.2]
    exact orderedInsert_strict ordered.sorted admitted.queueable.2
  queued := (ordered.distinct.insert admitted.queueable).queued

theorem Ordered.erase {s : ListScheduler} (ordered : s.Ordered) (e : Event) :
    (ListScheduler.mk (s.queue.erase e)).Ordered :=
  ⟨ordered.sorted.sublist List.erase_sublist, (ordered.distinct.erase e).queued⟩

theorem Ordered.tail {e : Event} {rest : List Event} (ordered : (ListScheduler.mk (e :: rest)).Ordered) :
    (ListScheduler.mk rest).Ordered :=
  ⟨ordered.sorted.of_cons, ordered.distinct.tail.queued⟩

end ListScheduler

end Ns2
