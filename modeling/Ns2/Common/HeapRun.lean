import Ns2.Common.HeapScheduler

namespace Ns2

/-- The calls of a `Heap`. -/
inductive HeapOp
  | insert (key : ℚ) (e : Event)
  | extractMin
  | delete (e : Event)
deriving DecidableEq

inductive HeapAnswer
  | inserted
  | extracted (e : Option Event)
  | deleted (found : Bool)
deriving DecidableEq

namespace Heap

open BinaryHeap (contents)

def step (h : Heap) : HeapOp → Option (Heap × HeapAnswer)
  | .insert key e => some (h.heapInsert key e, .inserted)
  | .extractMin => some (h.heapExtractMin.1, .extracted h.heapExtractMin.2)
  | .delete e => some ((h.heapDelete e).1, .deleted (h.heapDelete e).2)

def machine : Machine Heap HeapOp HeapAnswer := ⟨step⟩

/-- The elements in the places in use. -/
def stored (h : Heap) : Multiset HeapElem := contents h.elems h.size

/-- The places in use are in heap order, and they are places of the array. -/
structure InOrder (h : Heap) : Prop where
  ordered : BinaryHeap.Ordered rank h.elems h.size
  room : h.size ≤ h.maxsize ∧ 0 < h.maxsize

theorem holds_iff {h : Heap} {elements : Multiset HeapElem} : h.Holds elements ↔ h.InOrder ∧ h.stored = elements :=
  ⟨fun holds => ⟨⟨holds.ordered, holds.room⟩, holds.filled⟩, fun both => ⟨both.2, both.1.ordered, both.1.room⟩⟩

variable {h : Heap}

theorem InOrder.holds (order : h.InOrder) : h.Holds h.stored := holds_iff.mpr ⟨order, rfl⟩

theorem stored_size (h : Heap) : Multiset.card h.stored = h.size := by simp [stored, contents]

theorem empty_inOrder : empty.InOrder := (holds_iff.mp empty_holds).1

/-- The root is a least element, and what is left when it is taken off is in order again. -/
theorem InOrder.extractMin (order : h.InOrder) (some : h.stored ≠ 0) : ∃ x ∈ h.stored, (∀ y ∈ h.stored, rank x ≤ rank y) ∧
    h.heapExtractMin.2 = Option.some x.elem ∧ h.heapExtractMin.1.InOrder ∧ h.heapExtractMin.1.stored = h.stored.erase x := by
  have positive : 0 < h.size := by
    rw [← stored_size]
    exact Multiset.card_pos.mpr some
  have root : h.elems 0 ∈ h.stored := BinaryHeap.mem_contents.mpr ⟨0, positive, rfl⟩
  have filled : contents h.elems h.size = h.elems 0 ::ₘ h.stored.erase (h.elems 0) := (Multiset.cons_erase root).symm
  obtain ⟨left, answer⟩ := extract_holds filled rfl (order.ordered.hole positive) order.room
  obtain ⟨onward, elements⟩ := holds_iff.mp left
  refine ⟨h.elems 0, root, fun y member => ?_, answer, onward, elements⟩
  obtain ⟨i, inside, rfl⟩ := BinaryHeap.mem_contents.mp member
  exact order.ordered.root_le inside

theorem extractMin_nothing (none : h.stored = 0) : h.heapExtractMin = (h, Option.none) := by
  have vacant : h.size = 0 := by rw [← stored_size, none, Multiset.card_zero]
  rw [heapExtractMin, if_pos vacant]

theorem InOrder.delete (order : h.InOrder) {e : Event} (member : e ∈ h.stored.map HeapElem.elem) :
    ∃ x ∈ h.stored, x.elem = e ∧ (h.heapDelete e).2 = true ∧ (h.heapDelete e).1.InOrder ∧
      (h.heapDelete e).1.stored = h.stored.erase x := by
  obtain ⟨x, inside, carries, left, found⟩ := order.holds.delete member
  obtain ⟨onward, elements⟩ := holds_iff.mp left
  exact ⟨x, inside, carries, found, onward, elements⟩

theorem delete_absent {e : Event} (absent : e ∉ h.stored.map HeapElem.elem) : h.heapDelete e = (h, false) := by
  have none : h.heapMember e = 0 := by
    unfold heapMember
    split
    · rename_i i search
      have found := List.find?_some search
      have inside := List.mem_range.mp (List.mem_of_find?_eq_some search)
      refine absurd (Multiset.mem_map.mpr ⟨h.elems i, BinaryHeap.mem_contents.mpr ⟨i, inside, rfl⟩, ?_⟩) absent
      simpa using found
    · rfl
  rw [heapDelete, none]

/-- What each call does to a heap: it stays in order, and takes in or gives up just the element it is about. -/
structure Lawful (h : Heap) : Prop where
  insert : ∀ key e, (h.heapInsert key e).InOrder ∧ (h.heapInsert key e).stored = ⟨key, h.sKey, e⟩ ::ₘ h.stored
  extractMin : h.stored ≠ 0 → ∃ x ∈ h.stored, (∀ y ∈ h.stored, rank x ≤ rank y) ∧ h.heapExtractMin.2 = some x.elem ∧
    h.heapExtractMin.1.InOrder ∧ h.heapExtractMin.1.stored = h.stored.erase x
  nothing : h.stored = 0 → h.heapExtractMin = (h, none)
  delete : ∀ e ∈ h.stored.map HeapElem.elem, ∃ x ∈ h.stored, x.elem = e ∧ (h.heapDelete e).2 = true ∧
    (h.heapDelete e).1.InOrder ∧ (h.heapDelete e).1.stored = h.stored.erase x
  absent : ∀ e ∉ h.stored.map HeapElem.elem, h.heapDelete e = (h, false)

theorem InOrder.lawful (order : h.InOrder) : h.Lawful where
  insert key e := holds_iff.mp (order.holds.insert key e)
  extractMin some := order.extractMin some
  nothing none := extractMin_nothing none
  delete _ member := order.delete member
  absent _ outside := delete_absent outside

theorem InOrder.step (order : h.InOrder) (op : HeapOp) : ∃ next out, h.step op = some (next, out) ∧ next.InOrder := by
  cases op with
  | insert key e => exact ⟨_, _, rfl, (order.lawful.insert key e).1⟩
  | extractMin =>
    refine ⟨_, _, rfl, ?_⟩
    by_cases none : h.stored = 0
    · rw [extractMin_nothing none]
      exact order
    · obtain ⟨_, _, _, _, onward, _⟩ := order.extractMin none
      exact onward
  | delete e =>
    refine ⟨_, _, rfl, ?_⟩
    by_cases member : e ∈ h.stored.map HeapElem.elem
    · obtain ⟨_, _, _, _, onward, _⟩ := order.delete member
      exact onward
    · rw [delete_absent member]
      exact order

/-- In every state that the calls reach the heap is in order, and every call from there keeps it so. -/
theorem run_lawful (ops : List HeapOp) : ∃ h answers, machine.run empty ops = some (h, answers) ∧ h.InOrder ∧ h.Lawful := by
  have kept : ∀ h op, InOrder h → True → ∃ next out, machine.step h op = some (next, out) ∧ next.InOrder :=
    fun h op order _ => order.step op
  obtain ⟨h, answers, run, order⟩ := Machine.run_invariant kept empty_inOrder (Machine.along_trivial machine empty ops)
  exact ⟨h, answers, run, order, order.lawful⟩

end Heap

end Ns2
