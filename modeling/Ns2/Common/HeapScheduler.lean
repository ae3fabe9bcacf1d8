import Mathlib.Tactic.NormNum
import Ns2.Common.ListScheduler
import Ns2.Library.BinaryHeap

namespace Ns2

open BinaryHeap (siftUp siftDown toRoot contents)

/-- `Heap::Heap_elem`. -/
structure HeapElem where
  key : ℚ
  sKey : ℕ
  elem : Event
deriving DecidableEq

/-- `Heap`: the array `h_elems`, of which the first `h_size` places are in use. -/
structure Heap where
  elems : ℕ → HeapElem
  sKey : ℕ
  size : ℕ
  maxsize : ℕ

namespace Heap

/-- `h_s_key` is declared `unsigned int`, the stored `he_s_key` is `unsigned long`. -/
def sKeyRange : ℕ := 2 ^ 32

def keyLessThan (k1 : ℚ) (ks1 : ℕ) (k2 : ℚ) (ks2 : ℕ) : Bool :=
  k1 < k2 || (k1 == k2 && ks1 < ks2)

def less (x y : HeapElem) : Bool := keyLessThan x.key x.sKey y.key y.sKey

/-- The index of the first place that holds `e`, plus one; 0 when there is none. -/
def heapMember (h : Heap) (e : Event) : ℕ :=
  match (List.range h.size).find? fun i => (h.elems i).elem = e with
  | some i => i + 1
  | none => 0

def heapInsert (h : Heap) (key : ℚ) (e : Event) : Heap where
  elems := siftUp less ⟨key, h.sKey, e⟩ h.elems h.size
  sKey := (h.sKey + 1) % sKeyRange
  size := h.size + 1
  maxsize := if h.maxsize = h.size then h.maxsize * 2 else h.maxsize

def heapMin (h : Heap) : Option Event := if h.size > 0 then some (h.elems 0).elem else none

def heapExtractMin (h : Heap) : Heap × Option Event :=
  if h.size = 0 then (h, none)
  else
    let size := h.size - 1
    let elems := Function.update h.elems 0 (h.elems size)
    ({ h with elems := siftDown less size elems 0, size }, some (h.elems 0).elem)

def heapDelete (h : Heap) (e : Event) : Heap × Bool :=
  match h.heapMember e with
  | 0 => (h, false)
  | i + 1 => (({ h with elems := toRoot h.elems i } : Heap).heapExtractMin.1, true)

/-- `Heap(HEAP_DEFAULT_SIZE)`, its array set to zero. -/
def empty : Heap := ⟨fun _ => ⟨0, 0, ⟨0, 0⟩⟩, 0, 0, 32⟩

/-- The pair `<he_key, he_s_key>` by which the elements are compared. -/
def rank (x : HeapElem) : ℚ ×ₗ ℕ := toLex (x.key, x.sKey)

theorem rank_lt {x y : HeapElem} : rank x < rank y ↔ x.key < y.key ∨ x.key = y.key ∧ x.sKey < y.sKey :=
  Prod.Lex.toLex_lt_toLex

theorem less_iff (x y : HeapElem) : less x y = true ↔ rank x < rank y := by
  simp [less, keyLessThan, rank_lt]

/-- A heap of these elements: they fill its used places and are in heap order. -/
structure Holds (h : Heap) (stored : Multiset HeapElem) : Prop where
  filled : contents h.elems h.size = stored
  ordered : BinaryHeap.Ordered rank h.elems h.size
  room : h.size ≤ h.maxsize ∧ 0 < h.maxsize

theorem Holds.size {h : Heap} {stored : Multiset HeapElem} (holds : h.Holds stored) :
    h.size = Multiset.card stored := by
  rw [← holds.filled]
  simp [contents]

theorem empty_holds : empty.Holds 0 where
  filled := rfl
  ordered i _ inside := absurd inside (Nat.not_lt_zero i)
  room := by decide

theorem Holds.insert {h : Heap} {stored : Multiset HeapElem} (holds : h.Holds stored) (key : ℚ)
    (e : Event) : (h.heapInsert key e).Holds (⟨key, h.sKey, e⟩ ::ₘ stored) where
  filled := by
    rw [heapInsert, BinaryHeap.siftUp_contents _ _ _ (Nat.lt_succ_self h.size),
      BinaryHeap.contents_succ, Function.update_self, BinaryHeap.contents_update_ge _ _ le_rfl,
      holds.filled]
  ordered := by
    refine BinaryHeap.siftUp_ordered less_iff (Nat.lt_succ_self h.size) ⟨?_, ?_⟩ ?_
    · intro i positive inside last _
      change i < h.size + 1 at inside
      exact holds.ordered i positive (by omega)
    · intro _ c _ inside child
      change c < h.size + 1 at inside
      unfold BinaryHeap.parent at child
      omega
    · intro c _ inside child
      change c < h.size + 1 at inside
      unfold BinaryHeap.parent at child
      omega
  room := by
    have room := holds.room
    simp only [heapInsert]
    split_ifs <;> omega

/-- Taking the root off any heap whose other places are in order. -/
theorem extract_holds {h : Heap} {first : HeapElem} {stored : Multiset HeapElem}
    (filled : contents h.elems h.size = first ::ₘ stored) (root : h.elems 0 = first)
    (hole : BinaryHeap.HoleOrdered rank h.elems h.size 0) (room : h.size ≤ h.maxsize ∧ 0 < h.maxsize) :
    h.heapExtractMin.1.Holds stored ∧ h.heapExtractMin.2 = some first.elem := by
  have size : h.size = Multiset.card stored + 1 := by
    have counted := congrArg Multiset.card filled
    simpa [contents] using counted
  unfold heapExtractMin
  rw [if_neg (by omega)]
  refine ⟨⟨?_, ?_, by simp only; omega⟩, by rw [root]⟩
  · simp only
    rw [BinaryHeap.siftDown_contents]
    by_cases last : h.size = 1
    · have nothing : stored = 0 := Multiset.card_eq_zero.mp (by omega)
      rw [nothing, last]
      rfl
    · -- Swapping the root with the last place moves `first` out of the places still used.
      have swapped := BinaryHeap.contents_swap h.elems (n := h.size) (i := 0) (j := h.size - 1)
        (by omega) (by omega)
      rw [filled, show h.size = h.size - 1 + 1 by omega, BinaryHeap.contents_succ] at swapped
      have atLast : BinaryHeap.swap h.elems 0 (h.size - 1) (h.size - 1) = first := by
        rw [BinaryHeap.swap, if_neg (by omega), if_pos rfl, root]
      simp only [Nat.add_sub_cancel] at swapped
      rw [atLast, Multiset.cons_inj_right] at swapped
      rw [← swapped]
      refine BinaryHeap.contents_congr fun i inside => ?_
      unfold BinaryHeap.swap
      by_cases zero : i = 0
      · rw [zero, Function.update_self, if_pos rfl]
      · rw [Function.update_of_ne zero, if_neg zero, if_neg (by omega)]
  · refine BinaryHeap.siftDown_ordered less_iff ⟨?_, fun positive => absurd positive (lt_irrefl 0)⟩
      (fun positive => absurd positive (lt_irrefl 0))
    intro i positive inside _ below
    rw [Function.update_of_ne below, Function.update_of_ne (by omega)]
    exact hole.off i positive (by omega) (by omega) below

/-- A stored event that no other stored element carries. -/
theorem Holds.member {h : Heap} {stored : Multiset HeapElem} (holds : h.Holds stored) {e : Event}
    (member : e ∈ stored.map HeapElem.elem) :
    ∃ i, h.heapMember e = i + 1 ∧ i < h.size ∧ (h.elems i).elem = e := by
  obtain ⟨x, inside, rfl⟩ := Multiset.mem_map.mp member
  rw [← holds.filled, BinaryHeap.mem_contents] at inside
  obtain ⟨j, bound, rfl⟩ := inside
  unfold heapMember
  cases search : (List.range h.size).find? fun i => (h.elems i).elem = (h.elems j).elem with
  | none =>
    have missed := List.find?_eq_none.mp search j (List.mem_range.mpr bound)
    simp at missed
  | some i =>
    have found := List.find?_some search
    have range := List.mem_range.mp (List.mem_of_find?_eq_some search)
    exact ⟨i, rfl, range, by simpa using found⟩

theorem Holds.extractMin {h : Heap} {first : HeapElem} {stored : Multiset HeapElem}
    (holds : h.Holds (first ::ₘ stored)) (least : ∀ x ∈ stored, rank first < rank x) :
    h.heapExtractMin.1.Holds stored ∧ h.heapExtractMin.2 = some first.elem := by
  have size := holds.size
  rw [Multiset.card_cons] at size
  have root : h.elems 0 = first := by
    have inside : h.elems 0 ∈ first ::ₘ stored := by
      rw [← holds.filled, BinaryHeap.mem_contents]
      exact ⟨0, by omega, rfl⟩
    refine (Multiset.mem_cons.mp inside).resolve_right fun later => ?_
    obtain ⟨i, bound, atFirst⟩ := BinaryHeap.mem_contents.mp
      (holds.filled ▸ Multiset.mem_cons_self first stored)
    have smallest := holds.ordered.root_le bound
    rw [atFirst] at smallest
    exact absurd (least _ later) (not_lt.mpr smallest)
  exact extract_holds holds.filled root (holds.ordered.hole (by omega)) holds.room

/-- Deleting a stored event takes one element that carries it off the heap. -/
theorem Holds.delete {h : Heap} {stored : Multiset HeapElem} (holds : h.Holds stored) {e : Event}
    (member : e ∈ stored.map HeapElem.elem) :
    ∃ x ∈ stored, x.elem = e ∧ (h.heapDelete e).1.Holds (stored.erase x) ∧ (h.heapDelete e).2 = true := by
  obtain ⟨i, found, bound, carries⟩ := holds.member member
  have inside : h.elems i ∈ stored := by
    rw [← holds.filled, BinaryHeap.mem_contents]
    exact ⟨i, bound, rfl⟩
  have filled : contents (toRoot h.elems i) h.size = h.elems i ::ₘ stored.erase (h.elems i) := by
    rw [BinaryHeap.toRoot_contents _ bound, holds.filled, Multiset.cons_erase inside]
  have hole := BinaryHeap.toRoot_hole bound (holds.ordered.hole bound)
  have taken := extract_holds (h := { h with elems := toRoot h.elems i }) filled
    (BinaryHeap.toRoot_zero h.elems i) hole holds.room
  refine ⟨h.elems i, inside, carries, ?_, ?_⟩
  · rw [heapDelete, found]
    exact taken.1
  · rw [heapDelete, found]

theorem heapExtractMin_answer (h : Heap) : h.heapExtractMin.2 = h.heapMin := by
  unfold heapExtractMin heapMin
  split_ifs <;> first | rfl | omega

@[simp] theorem heapExtractMin_sKey (h : Heap) : h.heapExtractMin.1.sKey = h.sKey := by
  unfold heapExtractMin
  split <;> rfl

end Heap

/-- `HeapScheduler`. -/
structure HeapScheduler where
  hp : Heap

namespace HeapScheduler

def cancel (s : HeapScheduler) (e : Event) : HeapScheduler :=
  if e.uid ≤ 0 then s else ⟨(s.hp.heapDelete e).1⟩

def insert (s : HeapScheduler) (e : Event) : HeapScheduler := ⟨s.hp.heapInsert e.time e⟩

def head (s : HeapScheduler) : Option Event := s.hp.heapMin

def deque (s : HeapScheduler) : HeapScheduler × Option Event :=
  (⟨s.hp.heapExtractMin.1⟩, s.hp.heapExtractMin.2)

def step (s : HeapScheduler) : SchedulerOp → Option (HeapScheduler × Option Event)
  | .insert e => some (s.insert e, none)
  | .cancel e => some (s.cancel e, none)
  | .head => some (s, s.head)
  | .deque => some s.deque

/-- The heap scheduler as a component run by scheduler operations. -/
def machine : Machine HeapScheduler SchedulerOp (Option Event) := ⟨step⟩

def empty : HeapScheduler := ⟨Heap.empty⟩

/-- No queued event of the inserted time was stored under a key at or above the
counter: since it was inserted, the counter has not come round to its key. -/
def CounterAbove (s : HeapScheduler) : SchedulerOp → Prop
  | .insert e => ∀ i < s.hp.size, (s.hp.elems i).key = e.time → (s.hp.elems i).sKey < s.hp.sKey
  | _ => True

instance (s : HeapScheduler) : (op : SchedulerOp) → Decidable (s.CounterAbove op)
  | .insert e => inferInstanceAs (Decidable (∀ i < s.hp.size, (s.hp.elems i).key = e.time → (s.hp.elems i).sKey < s.hp.sKey))
  | .cancel _ | .head | .deque => isTrue trivial

/-- The heap stores the events of a list scheduler under keys that agree with
their places on the list. -/
def Stores (s : HeapScheduler) (l : ListScheduler) : Prop :=
  ∃ entries : List HeapElem, s.hp.Holds (entries : Multiset HeapElem) ∧
    entries.map HeapElem.elem = l.queue ∧ (∀ x ∈ entries, x.key = x.elem.time) ∧
    entries.Pairwise (fun x y => Heap.rank x < Heap.rank y) ∧ l.Distinct

theorem empty_stores : empty.Stores ListScheduler.empty :=
  ⟨[], Heap.empty_holds, rfl, by simp, .nil, ListScheduler.empty_distinct⟩

/-- Linking the stored elements as their events are linked on the list. -/
theorem link_entries (x : HeapElem) (entries : List HeapElem) (named : x.key = x.elem.time)
    (timed : ∀ y ∈ entries, y.key = y.elem.time)
    (above : ∀ y ∈ entries, y.key = x.key → y.sKey < x.sKey)
    (sorted : entries.Pairwise fun y z => Heap.rank y < Heap.rank z) :
    ∃ after : List HeapElem, after.Perm (x :: entries) ∧
      after.map HeapElem.elem = ListScheduler.link x.elem (entries.map HeapElem.elem) ∧
      after.Pairwise (fun y z => Heap.rank y < Heap.rank z) := by
  induction entries with
  | nil => exact ⟨[x], List.Perm.refl _, rfl, List.pairwise_singleton _ _⟩
  | cons y rest ih =>
    obtain ⟨first, ordered⟩ := List.pairwise_cons.mp sorted
    have atTime := timed y (List.mem_cons_self ..)
    by_cases earlier : x.elem.time < y.elem.time
    · refine ⟨x :: y :: rest, List.Perm.refl _, ?_, List.pairwise_cons.mpr ⟨?_, sorted⟩⟩
      · rw [List.map_cons, List.map_cons, ListScheduler.link, if_pos earlier]
      · have before : Heap.rank x < Heap.rank y :=
          Heap.rank_lt.mpr (Or.inl (by rwa [named, atTime]))
        intro z member
        rcases List.mem_cons.mp member with rfl | later
        · exact before
        · exact before.trans (first z later)
    · obtain ⟨after, perm, events, order⟩ := ih (fun z member => timed z (List.mem_cons_of_mem y member))
        (fun z member => above z (List.mem_cons_of_mem y member)) ordered
      refine ⟨y :: after, (perm.cons y).trans (List.Perm.swap x y rest), ?_, ?_⟩
      · rw [List.map_cons, List.map_cons, ListScheduler.link, if_neg earlier, events]
      · have before : Heap.rank y < Heap.rank x := by
          rw [Heap.rank_lt, atTime, named]
          rcases lt_or_eq_of_le (not_lt.mp earlier) with less | same
          · exact Or.inl less
          · exact Or.inr ⟨same, above y (List.mem_cons_self ..) (by rw [atTime, named, same])⟩
        refine List.pairwise_cons.mpr ⟨fun z member => ?_, order⟩
        rcases List.mem_cons.mp (perm.mem_iff.mp member) with rfl | old
        · exact before
        · exact first z old

theorem Stores.insert {s : HeapScheduler} {l : ListScheduler} (stores : s.Stores l) {e : Event}
    (above : s.CounterAbove (.insert e)) (admitted : l.Queueable (.insert e)) :
    (s.insert e).Stores (l.insert e) := by
  obtain ⟨entries, holds, events, timed, sorted, distinct⟩ := stores
  have below : ∀ y ∈ entries, y.key = e.time → y.sKey < s.hp.sKey := by
    intro y member same
    rw [← Multiset.mem_coe, ← holds.filled, BinaryHeap.mem_contents] at member
    obtain ⟨i, bound, rfl⟩ := member
    exact above i bound same
  obtain ⟨after, perm, linked, order⟩ :=
    link_entries ⟨e.time, s.hp.sKey, e⟩ entries rfl timed below sorted
  refine ⟨after, ?_, ?_, ?_, order, distinct.insert admitted⟩
  · rw [Multiset.coe_eq_coe.mpr perm]
    exact holds.insert e.time e
  · rw [linked, events]
    rfl
  · intro x member
    rcases List.mem_cons.mp (perm.mem_iff.mp member) with rfl | old
    · rfl
    · exact timed x old

/-- Where no two elements carry one event, erasing an element erases its event. -/
theorem map_erase_elem {entries : List HeapElem} {x : HeapElem} (member : x ∈ entries)
    (single : (entries.map HeapElem.elem).Nodup) :
    (entries.erase x).map HeapElem.elem = (entries.map HeapElem.elem).erase x.elem := by
  induction entries with
  | nil => simp at member
  | cons y rest ih =>
    rw [List.map_cons, List.nodup_cons] at single
    by_cases same : y = x
    · rw [same, List.erase_cons_head, List.map_cons, List.erase_cons_head]
    · have later : x ∈ rest := (List.mem_cons.mp member).resolve_left (Ne.symm same)
      have other : y.elem ≠ x.elem := by
        intro shared
        exact single.1 (shared ▸ List.mem_map_of_mem later)
      rw [List.erase_cons_tail (by simpa using same), List.map_cons, List.map_cons,
        List.erase_cons_tail (by simpa using other), ih later single.2]

theorem Stores.cancel {s : HeapScheduler} {l : ListScheduler} (stores : s.Stores l) {e : Event}
    (member : e ∈ l.queue) : (s.cancel e).Stores ⟨l.queue.erase e⟩ := by
  obtain ⟨entries, holds, events, timed, sorted, distinct⟩ := stores
  have stored : e ∈ (entries : Multiset HeapElem).map HeapElem.elem := by
    rwa [Multiset.map_coe, events, Multiset.mem_coe]
  obtain ⟨x, inside, carries, after, _⟩ := holds.delete stored
  have positive := distinct.queued e member
  refine ⟨entries.erase x, ?_, ?_, fun y member => timed y (List.mem_of_mem_erase member),
    sorted.sublist List.erase_sublist, distinct.erase e⟩
  · unfold HeapScheduler.cancel
    rw [if_neg (by omega), ← Multiset.coe_erase]
    exact after
  · rw [map_erase_elem (Multiset.mem_coe.mp inside) (events ▸ distinct.nodup), events, carries]

theorem Stores.deque {s : HeapScheduler} {l : ListScheduler} (stores : s.Stores l) :
    s.deque.2 = l.deque.2 ∧ s.deque.1.Stores l.deque.1 := by
  obtain ⟨entries, holds, events, timed, sorted, distinct⟩ := stores
  obtain ⟨queue⟩ := l
  simp only at events
  subst events
  cases entries with
  | nil =>
    have vacant : s.hp.size = 0 := by rw [holds.size]; rfl
    have unchanged : s.deque = (s, none) := by
      rw [HeapScheduler.deque, Heap.heapExtractMin, if_pos vacant]
    rw [unchanged]
    exact ⟨rfl, [], holds, rfl, timed, sorted, distinct⟩
  | cons first rest =>
    obtain ⟨before, order⟩ := List.pairwise_cons.mp sorted
    rw [← Multiset.cons_coe] at holds
    obtain ⟨after, taken⟩ := holds.extractMin before
    exact ⟨taken, rest, after, rfl, fun x member => timed x (List.mem_cons_of_mem first member), order,
      distinct.tail⟩

theorem Stores.head {s : HeapScheduler} {l : ListScheduler} (stores : s.Stores l) : s.head = l.head := by
  rw [← ListScheduler.deque_answer, ← stores.deque.1]
  exact (Heap.heapExtractMin_answer s.hp).symm

/-- One operation on the heap answers as the list scheduler does. -/
theorem Stores.step {s : HeapScheduler} {l : ListScheduler} (stores : s.Stores l) {op : SchedulerOp}
    (above : s.CounterAbove op) (admitted : l.Queueable op) :
    ∃ next lnext out, s.step op = some (next, out) ∧ l.step op = some (lnext, out) ∧
      next.Stores lnext := by
  cases op with
  | insert e => exact ⟨_, _, none, rfl, rfl, stores.insert above admitted⟩
  | cancel e =>
    have distinct := stores.choose_spec.2.2.2.2
    refine ⟨s.cancel e, ⟨l.queue.erase e⟩, none, rfl, ?_, stores.cancel admitted⟩
    simp only [ListScheduler.step, distinct.cancel admitted, Option.map_some]
  | head => exact ⟨s, l, l.head, by rw [← stores.head]; rfl, rfl, stores⟩
  | deque =>
    obtain ⟨same, after⟩ := stores.deque
    exact ⟨s.deque.1, l.deque.1, l.deque.2, by rw [← same]; rfl, rfl, after⟩

/-- While the insertion counter stays above the keys of the queued events of the
inserted time, a run of the heap scheduler answers as the list scheduler does. -/
theorem heap_refines_list {ops : List SchedulerOp}
    (admitted : ListScheduler.machine.Along ListScheduler.Queueable ListScheduler.empty ops)
    (above : machine.Along CounterAbove empty ops) :
    ∃ s l answers, machine.run empty ops = some (s, answers) ∧
      ListScheduler.machine.run ListScheduler.empty ops = some (l, answers) ∧ s.Stores l := by
  exact Machine.run_simulation (M := machine) (A := ListScheduler.machine) (R := Stores)
    (fun _ _ _ stores above admitted => stores.step above admitted) empty_stores above admitted

theorem heap_refines_list_sample :
    ∃ s l answers, machine.run empty [.insert ⟨3, 1⟩, .insert ⟨1, 2⟩, .insert ⟨3, 3⟩, .cancel ⟨3, 1⟩,
        .deque, .deque, .deque] = some (s, answers) ∧
      ListScheduler.machine.run ListScheduler.empty [.insert ⟨3, 1⟩, .insert ⟨1, 2⟩, .insert ⟨3, 3⟩,
        .cancel ⟨3, 1⟩, .deque, .deque, .deque] = some (l, answers) ∧ s.Stores l :=
  heap_refines_list (by decide) (by decide +kernel)

/-- `n` events numbered from `start + 1`, each inserted into the empty queue and
taken off it again. -/
def drained (start : ℕ) : ℕ → List SchedulerOp
  | 0 => []
  | n + 1 => .insert ⟨0, start + 1⟩ :: .deque :: drained (start + 1) n

/-- After `n` events have passed through, two more of one time are queued and the
next event is asked for. -/
def pairAfter (n : ℕ) : List SchedulerOp :=
  drained 0 n ++ [.insert ⟨0, n + 1⟩, .insert ⟨0, n + 2⟩, .deque]

theorem drained_list (start n : ℕ) : ∃ answers,
    ListScheduler.machine.run ListScheduler.empty (drained start n) = some (ListScheduler.empty, answers) := by
  induction n generalizing start with
  | zero => exact ⟨[], rfl⟩
  | succ n ih =>
    obtain ⟨answers, run⟩ := ih (start + 1)
    exact ⟨none :: some ⟨0, start + 1⟩ :: answers, Machine.run_cons_cons rfl rfl run⟩

theorem drained_admissible (start n : ℕ) :
    ListScheduler.machine.Along ListScheduler.Admissible ListScheduler.empty (drained start n) := by
  induction n generalizing start with
  | zero => trivial
  | succ n ih => exact ⟨⟨Int.natCast_succ_pos start, by simp [ListScheduler.empty]⟩, trivial, ih (start + 1)⟩

theorem pairAfter_admissible (n : ℕ) :
    ListScheduler.machine.Along ListScheduler.Admissible ListScheduler.empty (pairAfter n) := by
  obtain ⟨answers, run⟩ := drained_list 0 n
  refine (drained_admissible 0 n).append run ⟨⟨?_, by simp [ListScheduler.empty]⟩, ⟨?_, ?_⟩, trivial, trivial⟩
  · simp only
    omega
  · simp only
    omega
  · intro x member
    rw [List.mem_singleton.mp member]
    simp only
    omega

/-- The list scheduler answers the first of the two events. -/
theorem pairAfter_list (n : ℕ) : ∃ l answers,
    ListScheduler.machine.run ListScheduler.empty (pairAfter n) = some (l, answers) ∧
      answers.getLast? = some (some ⟨0, n + 1⟩) := by
  obtain ⟨answers, run⟩ := drained_list 0 n
  rw [pairAfter, Machine.run_append run]
  refine ⟨_, _, rfl, ?_⟩
  simp [ListScheduler.insert, ListScheduler.link, ListScheduler.deque, ListScheduler.empty]

/-- Every event that passes through moves the counter one further. -/
theorem drained_heap {s : HeapScheduler} (vacant : s.hp.size = 0) (inRange : s.hp.sKey < Heap.sKeyRange)
    (start n : ℕ) : ∃ last answers, machine.run s (drained start n) = some (last, answers) ∧
      last.hp.size = 0 ∧ last.hp.sKey = (s.hp.sKey + n) % Heap.sKeyRange := by
  induction n generalizing s start with
  | zero => exact ⟨s, [], rfl, vacant, (Nat.mod_eq_of_lt inRange).symm⟩
  | succ n ih =>
    have through : ((s.insert ⟨0, start + 1⟩).deque.1).hp.size = 0 := by
      simp [HeapScheduler.deque, HeapScheduler.insert, Heap.heapExtractMin, Heap.heapInsert, vacant]
    have advanced : ((s.insert ⟨0, start + 1⟩).deque.1).hp.sKey = (s.hp.sKey + 1) % Heap.sKeyRange := by
      simp only [HeapScheduler.deque, HeapScheduler.insert, Heap.heapExtractMin_sKey, Heap.heapInsert]
    have wide : 0 < Heap.sKeyRange := by decide
    obtain ⟨last, answers, run, after, counter⟩ :=
      ih through (advanced ▸ Nat.mod_lt _ wide) (start + 1)
    refine ⟨last, _, Machine.run_cons_cons rfl rfl run, after, ?_⟩
    rw [counter, advanced, Nat.mod_add_mod, Nat.add_assoc, Nat.add_comm 1 n]

/-- Two events of one time in an otherwise empty heap: the later goes first when
the counter wraps between them. -/
theorem wrapped_pair {s : HeapScheduler} (vacant : s.hp.size = 0)
    (last : s.hp.sKey + 1 = Heap.sKeyRange) (a b : Event) (same : a.time = b.time) :
    ((s.insert a).insert b).head = some b := by
  have zero : (s.hp.sKey + 1) % Heap.sKeyRange = 0 := by rw [last, Nat.mod_self]
  have positive : 0 < s.hp.sKey := by
    have wide : 1 < Heap.sKeyRange := by decide
    omega
  simp only [HeapScheduler.head, HeapScheduler.insert, Heap.heapMin, Heap.heapInsert, vacant, zero,
    BinaryHeap.siftUp_root, Nat.zero_add]
  have first : BinaryHeap.parent 1 = 0 := rfl
  rw [if_pos (by omega), siftUp, first, if_pos, BinaryHeap.siftUp_root, Function.update_self]
  rw [Function.update_self, Heap.less_iff, Heap.rank_lt]
  exact ⟨Nat.one_pos, Or.inr ⟨same.symm, positive⟩⟩

/-- The heap scheduler answers the second of the two events when the counter
wraps between them. -/
theorem pairAfter_heap {n : ℕ} (wraps : n % Heap.sKeyRange + 1 = Heap.sKeyRange) : ∃ s answers,
    machine.run empty (pairAfter n) = some (s, answers) ∧
      answers.getLast? = some (some ⟨0, n + 2⟩) := by
  obtain ⟨s, before, drain, vacant, counter⟩ := drained_heap (s := empty) rfl (by decide) 0 n
  have last : s.hp.sKey + 1 = Heap.sKeyRange := by
    rw [counter, empty, Heap.empty, Nat.zero_add, wraps]
  have second := wrapped_pair vacant last ⟨0, n + 1⟩ ⟨0, n + 2⟩ rfl
  have answer := (Heap.heapExtractMin_answer _).trans second
  rw [pairAfter, Machine.run_append drain]
  refine ⟨_, _, rfl, ?_⟩
  simp only [List.getLast?_append, List.getLast?_cons, List.getLast?_nil, Option.getD_none,
    Option.getD_some, Option.some_or, HeapScheduler.deque, answer]

/-- After 2^32 - 1 insertions the counter wraps between two events of one time:
the list scheduler answers the first of them, the heap scheduler the second. -/
theorem heap_counter_wraps :
    ListScheduler.machine.Along ListScheduler.Admissible ListScheduler.empty (pairAfter (2 ^ 32 - 1)) ∧
    (∃ l answers, ListScheduler.machine.run ListScheduler.empty (pairAfter (2 ^ 32 - 1)) = some (l, answers) ∧
      answers.getLast? = some (some ⟨0, 2 ^ 32⟩)) ∧
    ∃ s answers, machine.run empty (pairAfter (2 ^ 32 - 1)) = some (s, answers) ∧
      answers.getLast? = some (some ⟨0, 2 ^ 32 + 1⟩) := by
  have first : ((2 ^ 32 - 1 : ℕ) : ℤ) + 1 = 2 ^ 32 := by norm_num
  have second : ((2 ^ 32 - 1 : ℕ) : ℤ) + 2 = 2 ^ 32 + 1 := by norm_num
  rw [← first, add_assoc, show (1 : ℤ) + 1 = 2 by norm_num]
  refine ⟨?_, ?_, ?_⟩
  · exact pairAfter_admissible (2 ^ 32 - 1)
  · exact pairAfter_list (2 ^ 32 - 1)
  · have wraps : (2 ^ 32 - 1) % Heap.sKeyRange + 1 = Heap.sKeyRange := by norm_num [Heap.sKeyRange]
    exact pairAfter_heap wraps

end HeapScheduler

end Ns2
