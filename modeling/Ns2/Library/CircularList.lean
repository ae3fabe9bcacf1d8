import Mathlib.Data.List.Nodup
import Mathlib.Data.Int.Notation
import Mathlib.Logic.Function.Iterate

universe u

/-- The links of the nodes of circular doubly linked lists. -/
structure Links (ι : Type u) where
  prev : ι → ι
  next : ι → ι

namespace Links

variable {ι : Type u}

section Operations

variable [DecidableEq ι]

def setPrev (L : Links ι) (x y : ι) : Links ι := { L with prev := Function.update L.prev x y }

def setNext (L : Links ι) (x y : ι) : Links ι := { L with next := Function.update L.next x y }

@[simp] theorem setPrev_next (L : Links ι) (x y : ι) : (L.setPrev x y).next = L.next := rfl

@[simp] theorem setNext_prev (L : Links ι) (x y : ι) : (L.setNext x y).prev = L.prev := rfl

@[simp] theorem setPrev_prev (L : Links ι) (x y : ι) : (L.setPrev x y).prev = Function.update L.prev x y := rfl

@[simp] theorem setNext_next (L : Links ι) (x y : ι) : (L.setNext x y).next = Function.update L.next x y := rfl

/-- Links `x` in just before `head`, which is the end of the circle that
starts at `head`. -/
def insertBefore (L : Links ι) (x head : ι) : Links ι :=
  let L := L.setPrev x (L.prev head)
  let L := L.setNext x head
  let L := L.setNext (L.prev head) x
  L.setPrev head x

def alone (L : Links ι) (x : ι) : Links ι := (L.setPrev x x).setNext x x

/-- Links the neighbours of `x` to each other. The links of `x` stay. -/
def unlink (L : Links ι) (x : ι) : Links ι :=
  let L := L.setPrev (L.next x) (L.prev x)
  L.setNext (L.prev x) (L.next x)

end Operations

/-- The nodes that following `next` from `x` visits in `n` steps. -/
def follow (L : Links ι) : ℕ → ι → List ι
  | 0, _ => []
  | n + 1, x => x :: L.follow n (L.next x)

/-- The first node with `p` among the `n` from `x` on. -/
def seek (L : Links ι) (p : ι → Bool) : ℕ → ι → Option ι
  | 0, _ => none
  | n + 1, x => if p x then some x else L.seek p n (L.next x)

/-- The first node with the largest `f` among `best` and the `n` from `x` on. -/
def argmax (L : Links ι) (f : ι → ℤ) : ℕ → ι → ι → ι
  | 0, _, best => best
  | n + 1, x, best => L.argmax f n (L.next x) (if f best < f x then x else best)

/-- The links lead from `a` through the list to `b`, and back. -/
def Linked (L : Links ι) : ι → List ι → ι → Prop
  | a, [], b => L.next a = b ∧ L.prev b = a
  | a, x :: l, b => L.next a = x ∧ L.prev x = a ∧ L.Linked x l b

/-- The nodes of `l`, each once, form a circle in this order. -/
def Circle (L : Links ι) : List ι → Prop
  | [] => True
  | h :: t => (h :: t).Nodup ∧ L.Linked h t h

variable {L L' : Links ι} {a b h x : ι} {l r t : List ι}

theorem linked_append : L.Linked a (l ++ x :: r) b ↔ L.Linked a l x ∧ L.Linked x r b := by
  induction l generalizing a with
  | nil => simp only [List.nil_append, Linked, and_assoc]
  | cons y l ih => simp only [List.cons_append, Linked, ih, and_assoc]

theorem Linked.congr (linked : L.Linked a l b) (next : ∀ y ∈ a :: l, L'.next y = L.next y)
    (prev : ∀ y ∈ l ++ [b], L'.prev y = L.prev y) : L'.Linked a l b := by
  induction l generalizing a with
  | nil =>
    refine ⟨?_, ?_⟩
    · rw [next a (by simp), linked.1]
    · rw [prev b (by simp), linked.2]
  | cons x l ih =>
    obtain ⟨forward, back, rest⟩ := linked
    refine ⟨?_, ?_, ih rest ?_ ?_⟩
    · rw [next a (by simp), forward]
    · rw [prev x (by simp), back]
    · exact fun y member => next y (List.mem_cons_of_mem a member)
    · exact fun y member => prev y (List.mem_cons_of_mem x member)

theorem Circle.nodup (circle : L.Circle l) : l.Nodup := by
  cases l with
  | nil => exact List.nodup_nil
  | cons h t => exact circle.1

/-- A circle may be read from any of its nodes. -/
theorem Circle.swap (circle : L.Circle (l ++ r)) : L.Circle (r ++ l) := by
  cases l with
  | nil => simpa using circle
  | cons h t =>
    cases r with
    | nil => simpa using circle
    | cons x r =>
      refine ⟨List.nodup_append_comm.mp circle.nodup, ?_⟩
      have parts := linked_append.mp circle.2
      exact linked_append.mpr ⟨parts.2, parts.1⟩

theorem Circle.next_head (circle : L.Circle (h :: x :: r)) : L.next h = x := circle.2.1

theorem Circle.next_alone (circle : L.Circle [h]) : L.next h = h := circle.2.1

theorem Circle.turn (circle : L.Circle (h :: t)) : L.Circle (t ++ [h]) := by
  have parts : L.Circle ([h] ++ t) := circle
  exact parts.swap

theorem Circle.head_turn (circle : L.Circle (h :: t)) : (t ++ [h]).head? = some (L.next h) := by
  cases t with
  | nil => rw [circle.next_alone]; rfl
  | cons x r => rw [circle.next_head]; rfl

theorem Linked.follow (linked : L.Linked a l b) : L.follow (l.length + 1) a = a :: l := by
  induction l generalizing a with
  | nil => rfl
  | cons x l ih =>
    rw [List.length_cons, Links.follow, linked.1, ih linked.2.2]

theorem Circle.follow (circle : L.Circle (h :: t)) : L.follow (h :: t).length h = h :: t := circle.2.follow

theorem Linked.iterate (linked : L.Linked a l b) : L.next^[l.length + 1] a = b := by
  induction l generalizing a with
  | nil => exact linked.1
  | cons x l ih =>
    rw [List.length_cons, Function.iterate_succ_apply, linked.1]
    exact ih linked.2.2

theorem Circle.iterate (circle : L.Circle (h :: t)) : L.next^[(h :: t).length] h = h := circle.2.iterate

theorem seek_eq_find (L : Links ι) (p : ι → Bool) (n : ℕ) (x : ι) : L.seek p n x = (L.follow n x).find? p := by
  induction n generalizing x with
  | zero => rfl
  | succ n ih =>
    rw [seek, Links.follow, List.find?_cons, ih]
    cases p x <;> rfl

theorem Circle.seek (circle : L.Circle (h :: t)) (p : ι → Bool) :
    L.seek p (h :: t).length h = (h :: t).find? p := by
  rw [seek_eq_find, circle.follow]

theorem argmax_mem (L : Links ι) (f : ι → ℤ) (n : ℕ) (x best : ι) : L.argmax f n x best ∈ best :: L.follow n x := by
  induction n generalizing x best with
  | zero => exact List.mem_cons_self
  | succ n ih =>
    rw [argmax, Links.follow]
    rcases List.mem_cons.mp (ih (L.next x) (if f best < f x then x else best)) with same | later
    · rw [same]
      split_ifs
      · exact List.mem_cons_of_mem best List.mem_cons_self
      · exact List.mem_cons_self
    · exact List.mem_cons_of_mem best (List.mem_cons_of_mem x later)

theorem Circle.argmax_mem (circle : L.Circle (h :: t)) (f : ι → ℤ) : L.argmax f (h :: t).length h h ∈ h :: t := by
  have member := L.argmax_mem f (h :: t).length h h
  rw [circle.follow] at member
  rcases List.mem_cons.mp member with first | inside
  · rw [first]
    exact List.mem_cons_self
  · exact inside

variable [DecidableEq ι]

theorem circle_alone (L : Links ι) (x : ι) : (L.alone x).Circle [x] :=
  ⟨List.nodup_singleton x, Function.update_self .., Function.update_self ..⟩

theorem Circle.insertBefore (circle : L.Circle (h :: t)) (absent : x ∉ h :: t) :
    (L.insertBefore x h).Circle (h :: (t ++ [x])) := by
  have apart : x ≠ h := fun same => absent (same ▸ List.mem_cons_self)
  refine ⟨?_, linked_append.mpr ⟨?_, ?_⟩⟩
  · rw [← List.cons_append]
    exact List.nodup_append_comm.mp (List.nodup_cons.mpr ⟨absent, circle.nodup⟩)
  · rcases t.eq_nil_or_concat with rfl | ⟨front, last, rfl⟩
    · have back : L.prev h = h := circle.2.2
      simp [Links.insertBefore, Linked, Function.update_of_ne apart.symm, Function.update_of_ne apart, back]
    · rw [List.concat_eq_append] at circle absent ⊢
      obtain ⟨inner, _, back⟩ := linked_append.mp circle.2
      have distinct := circle.nodup
      simp only [List.mem_cons, List.mem_append, List.not_mem_nil, or_false, not_or] at absent
      obtain ⟨_, outside, notLast⟩ := absent
      simp only [List.nodup_cons, List.mem_append, List.mem_singleton, not_or] at distinct
      obtain ⟨⟨notFront, headLast⟩, rest⟩ := distinct
      have lastFront : last ∉ front := fun member => (List.nodup_append.mp rest).2.2 last member last (by simp) rfl
      refine linked_append.mpr ⟨inner.congr (fun y member => ?_) fun y member => ?_, ?_, ?_⟩
      · have notX : y ≠ x := by rintro rfl; simp_all
        have notL : y ≠ last := by rintro rfl; simp_all
        simp [Links.insertBefore, Function.update_of_ne apart.symm, back, Function.update_of_ne notX,
          Function.update_of_ne notL]
      · have notX : y ≠ x := by rintro rfl; simp_all
        have notH : y ≠ h := by rintro rfl; simp_all
        simp [Links.insertBefore, Function.update_of_ne notX, Function.update_of_ne notH]
      · simp [Links.insertBefore, Function.update_of_ne apart.symm, back]
      · simp [Links.insertBefore, Function.update_of_ne apart, back]
  · have notPrev : x ≠ L.prev h := by
      intro same
      rcases t.eq_nil_or_concat with rfl | ⟨front, last, rfl⟩
      · exact apart (same.trans circle.2.2)
      · rw [List.concat_eq_append] at circle absent
        have back : L.prev h = last := (linked_append.mp circle.2).2.2
        exact absent (by simp [same, back])
    simp [Links.insertBefore, Linked, Function.update_of_ne apart.symm, Function.update_of_ne notPrev]

theorem Circle.unlink (circle : L.Circle (x :: h :: t)) : (L.unlink x).Circle (h :: t) := by
  obtain ⟨absent, distinct⟩ := List.nodup_cons.mp circle.nodup
  have next := circle.next_head
  have self : x ≠ h := fun same => absent (same ▸ List.mem_cons_self)
  refine ⟨distinct, ?_⟩
  rcases t.eq_nil_or_concat with rfl | ⟨front, last, rfl⟩
  · have prev : L.prev x = h := circle.2.2.2.2
    simp [Links.unlink, Linked, next, prev, Function.update_of_ne self]
  · rw [List.concat_eq_append] at circle absent distinct ⊢
    obtain ⟨inner, _, prev⟩ := linked_append.mp circle.2.2.2
    obtain ⟨notIn, rest⟩ := List.nodup_cons.mp distinct
    have lastFront : last ∉ front := fun member => (List.nodup_append.mp rest).2.2 last member last (by simp) rfl
    have headLast : last ≠ h := by
      rintro rfl
      exact notIn (by simp)
    have apart : h ∉ front := fun member => notIn (by simp [member])
    refine linked_append.mpr ⟨inner.congr (fun y member => ?_) fun y member => ?_, ?_, ?_⟩
    · have notLast : y ≠ last := by
        rintro rfl
        exact (List.mem_cons.mp member).elim headLast lastFront
      simp [Links.unlink, next, prev, Function.update_of_ne self, Function.update_of_ne notLast]
    · have notHead : y ≠ h := by
        rintro rfl
        exact (List.mem_append.mp member).elim apart fun same => headLast (List.mem_singleton.mp same).symm
      simp [Links.unlink, next, Function.update_of_ne notHead]
    · simp [Links.unlink, next, prev, Function.update_of_ne self]
    · simp [Links.unlink, next, prev]

theorem Circle.unlink_inside (circle : L.Circle (h :: (l ++ x :: r))) : (L.unlink x).Circle (h :: (l ++ r)) := by
  have turned : L.Circle (x :: (r ++ h :: l)) := by
    rw [← List.cons_append] at circle ⊢
    exact circle.swap
  obtain ⟨first, rest, cut⟩ : ∃ first rest, r ++ h :: l = first :: rest := by cases r <;> exact ⟨_, _, rfl⟩
  have left : (L.unlink x).Circle (r ++ h :: l) := by
    rw [cut] at turned ⊢
    exact turned.unlink
  exact left.swap

/-- Puts `x` at the end of the circle at `head`. -/
def activate (L : Links ι) (x : ι) : Option ι → Links ι × Option ι
  | some head => (L.insertBefore x head, some head)
  | none => (L.alone x, some x)

/-- Takes `x` out of the circle at `head`. -/
def idle (L : Links ι) (x head : ι) : Links ι × Option ι :=
  if head = x then
    if L.next x = x then (L, none)
    else
      let L := L.unlink x
      (L, some (L.next x))
  else (L.unlink x, some head)

/-- The circle at `head`, read from there, is `l`. -/
structure Ring (L : Links ι) (head : Option ι) (l : List ι) : Prop where
  head : head = l.head?
  circle : L.Circle l

omit [DecidableEq ι] in
theorem ring_nil (L : Links ι) : L.Ring none [] := ⟨rfl, trivial⟩

theorem Ring.activate {head : Option ι} (ring : L.Ring head l) (absent : x ∉ l) :
    (L.activate x head).1.Ring (L.activate x head).2 (l ++ [x]) := by
  cases l with
  | nil =>
    rw [ring.head]
    exact ⟨rfl, circle_alone L x⟩
  | cons h t =>
    rw [ring.head]
    exact ⟨rfl, ring.circle.insertBefore absent⟩

theorem unlink_next_self (L : Links ι) (x : ι) : (L.unlink x).next x = L.next x := by
  have same : Function.update L.next (Function.update L.prev (L.next x) (L.prev x) x) (L.next x) x = L.next x := by
    rw [Function.update_apply]
    split_ifs <;> rfl
  exact same

theorem Circle.idle_head (circle : L.Circle (x :: t)) : (L.idle x x).1.Ring (L.idle x x).2 t := by
  rw [Links.idle, if_pos rfl]
  cases t with
  | nil =>
    rw [if_pos circle.next_alone]
    exact ring_nil L
  | cons h t =>
    have next := circle.next_head
    have apart : h ≠ x := by
      rintro rfl
      exact (List.nodup_cons.mp circle.nodup).1 List.mem_cons_self
    rw [next, if_neg apart]
    have moved : some ((L.unlink x).next x) = some h := by rw [unlink_next_self, next]
    exact ⟨moved, circle.unlink⟩

theorem Circle.idle (circle : L.Circle (h :: t)) (member : x ∈ h :: t) :
    (L.idle x h).1.Ring (L.idle x h).2 ((h :: t).erase x) := by
  by_cases first : h = x
  · subst first
    rw [List.erase_cons_head]
    exact circle.idle_head
  · obtain ⟨l, r, rfl⟩ := List.append_of_mem ((List.mem_cons.mp member).resolve_left (Ne.symm first))
    have notBefore : x ∉ l := fun before =>
      (List.nodup_append.mp (List.nodup_cons.mp circle.nodup).2).2.2 x before x List.mem_cons_self rfl
    rw [List.erase_cons_tail (by simpa using first), List.erase_append_right _ notBefore, List.erase_cons_head,
      Links.idle, if_neg first]
    exact ⟨rfl, circle.unlink_inside⟩

end Links
