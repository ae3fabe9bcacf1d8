import Ns2.Common.ListScheduler
import Ns2.Library.SearchTree

namespace Ns2

open BinaryTree (nil node)

/-- `SplayScheduler`: an event is a tree node, `prev_` its left and `next_`
its right subtree. -/
structure SplayScheduler where
  root : BinaryTree Event
  qsize : ℤ
deriving DecidableEq

namespace SplayScheduler

/-- The nodes linked under one of the hooks `l` and `r` of `insert`, latest
first, each with the subtree on its finished side. -/
abbrev Spine := List (Event × BinaryTree Event)

/-- The left tree of `insert` once `RIGHT(l)` is set to `rest`. -/
def fillRight (spine : Spine) (rest : BinaryTree Event) : BinaryTree Event :=
  spine.foldl (fun below frame => node frame.1 frame.2 below) rest

/-- The right tree of `insert` once `LEFT(r)` is set to `rest`. -/
def fillLeft (spine : Spine) (rest : BinaryTree Event) : BinaryTree Event :=
  spine.foldl (fun below frame => node frame.1 below frame.2) rest

/-- The top-down splay loop of `SplayScheduler::insert` on the remaining tree `t`. -/
def splay (time : ℚ) : BinaryTree Event → Spine → Spine → BinaryTree Event × BinaryTree Event
  | nil, l, r => (fillRight l nil, fillLeft r nil)
  | node t left right, l, r =>
    if time < t.time then
      match left with
      | nil => (fillRight l nil, fillLeft r (node t nil right))
      | node x xl xr =>
        -- ROTATE_RIGHT brings x up before LINK_RIGHT hangs it under r.
        if time < x.time then splay time xl l ((x, node t xr right) :: r)
        else splay time (node x xl xr) l ((t, right) :: r)
    else
      match right with
      | nil => (fillRight l (node t left nil), fillLeft r nil)
      | node x xl xr =>
        if time ≥ x.time then splay time xr ((x, node t left xl) :: l) r
        else splay time (node x xl xr) ((t, left) :: l) r

def insert (s : SplayScheduler) (n : Event) : SplayScheduler :=
  match s.root with
  | nil => ⟨node n nil nil, s.qsize + 1⟩
  | t =>
    let sides := splay n.time t [] []
    ⟨node n sides.1 sides.2, s.qsize + 1⟩

/-- The walk of `SplayScheduler::head` down the left spine below `t`. -/
def leftmost (t : Event) : BinaryTree Event → Event
  | nil => t
  | node l ll _ => leftmost l ll

def head (s : SplayScheduler) : Option Event :=
  match s.root with
  | nil => none
  | node t left _ => some (leftmost t left)

/-- The loop of `SplayScheduler::deque` at a node `t` with left child `l`: the
event it returns and the new left subtree of `t`. -/
def zigZig (l : Event) : BinaryTree Event → BinaryTree Event → Event × BinaryTree Event
  | nil, lr => (l, lr)
  | node ll lll llr, lr =>
    match lll with
    | nil => (ll, node l llr lr)
    | node x xl xr =>
      let rest := zigZig x xl xr
      (rest.1, node ll rest.2 (node l llr lr))

def deque (s : SplayScheduler) : SplayScheduler × Option Event :=
  match s.root with
  | nil => (s, none)
  | node t nil right => (⟨right, s.qsize - 1⟩, some t)
  | node t (node l ll lr) right =>
    let rest := zigZig l ll lr
    (⟨node t rest.2 right, s.qsize - 1⟩, some rest.1)

/-- The loop of `SplayScheduler::cancel` that looks for the successor below the
node `q`: the successor and what stands in the place of `q` without it. -/
def successor (q : Event) : BinaryTree Event → BinaryTree Event → Event × BinaryTree Event
  | nil, qr => (q, qr)
  | node x xl xr, qr =>
    let rest := successor x xl xr
    (rest.1, node q rest.2 qr)

/-- What `SplayScheduler::cancel` puts in the place of an event with these subtrees. -/
def replacement : BinaryTree Event → BinaryTree Event → BinaryTree Event
  | left, nil => left
  | nil, right => right
  | left, node p nil pr => node p left pr
  | left, node p (node q ql qr) pr =>
    let rest := successor q ql qr
    node rest.1 left (node p rest.2 pr)

/-- The search of `SplayScheduler::cancel` by `time_` and `uid_`, which aborts
when it falls off the tree. -/
def unlink (e : Event) : BinaryTree Event → Option (BinaryTree Event)
  | nil => none
  | node t left right =>
    if t = e then some (replacement left right)
    else if e.time > t.time ∨ e.time = t.time ∧ e.uid > t.uid then
      (unlink e right).map (node t left ·)
    else (unlink e left).map (node t · right)

def cancel (s : SplayScheduler) (e : Event) : Option SplayScheduler :=
  if e.uid ≤ 0 then some s else (unlink e s.root).map (⟨·, s.qsize - 1⟩)

def step (s : SplayScheduler) : SchedulerOp → Option (SplayScheduler × Option Event)
  | .insert e => some (s.insert e, none)
  | .cancel e => (s.cancel e).map (·, none)
  | .head => some (s, s.head)
  | .deque => some s.deque

/-- The splay scheduler as a component run by scheduler operations. -/
def machine : Machine SplayScheduler SchedulerOp (Option Event) := ⟨step⟩

def empty : SplayScheduler := ⟨nil, 0⟩

theorem fillRight_inorder (spine : Spine) (rest : BinaryTree Event) :
    (fillRight spine rest).inorder = (fillRight spine nil).inorder ++ rest.inorder := by
  induction spine generalizing rest with
  | nil => rfl
  | cons frame spine ih =>
    have outer := ih (node frame.1 frame.2 rest)
    have inner := ih (node frame.1 frame.2 nil)
    simp only [fillRight, List.foldl_cons] at outer inner ⊢
    rw [outer, inner]
    simp

theorem fillLeft_inorder (spine : Spine) (rest : BinaryTree Event) :
    (fillLeft spine rest).inorder = rest.inorder ++ (fillLeft spine nil).inorder := by
  induction spine generalizing rest with
  | nil => simp [fillLeft]
  | cons frame spine ih =>
    have outer := ih (node frame.1 rest frame.2)
    have inner := ih (node frame.1 nil frame.2)
    simp only [fillLeft, List.foldl_cons] at outer inner ⊢
    rw [outer, inner]
    simp

theorem fillRight_cons (t : Event) (sub : BinaryTree Event) (spine : Spine) :
    (fillRight ((t, sub) :: spine) nil).inorder = (fillRight spine nil).inorder ++ (sub.inorder ++ [t]) := by
  change (fillRight spine (node t sub nil)).inorder = _
  rw [fillRight_inorder]
  simp

theorem fillLeft_cons (t : Event) (sub : BinaryTree Event) (spine : Spine) :
    (fillLeft ((t, sub) :: spine) nil).inorder = t :: sub.inorder ++ (fillLeft spine nil).inorder := by
  change (fillLeft spine (node t nil sub)).inorder = _
  rw [fillLeft_inorder]
  simp

/-- Splaying keeps the left to right order of all events. -/
theorem splay_inorder (time : ℚ) (t : BinaryTree Event) (l r : Spine) :
    (splay time t l r).1.inorder ++ (splay time t l r).2.inorder =
      (fillRight l nil).inorder ++ t.inorder ++ (fillLeft r nil).inorder := by
  fun_induction splay time t l r with
  | case1 l r => simp
  | case2 t right l r earlier => rw [fillLeft_inorder, List.append_assoc]
  | case3 t right l r earlier x xl xr inner ih =>
    rw [ih, fillLeft_cons]
    simp
  | case4 t right l r earlier x xl xr inner ih =>
    rw [ih, fillLeft_cons]
    simp
  | case5 t left l r later => rw [fillRight_inorder]
  | case6 t left l r later x xl xr inner ih =>
    rw [ih, fillRight_cons]
    simp
  | case7 t left l r later x xl xr inner ih =>
    rw [ih, fillRight_cons]
    simp

/-- The events of a tree stand in the order of their times. -/
def Timed (t : BinaryTree Event) : Prop := t.inorder.Pairwise fun a b => a.time ≤ b.time

theorem Timed.below_root {time : ℚ} {t : Event} {left right : BinaryTree Event}
    (timed : Timed (node t left right)) (later : t.time ≤ time) :
    ∀ x ∈ left.inorder ++ [t], x.time ≤ time := by
  intro x member
  rcases List.mem_append.mp member with below | root
  · exact ((List.pairwise_append.mp timed).2.2 x below t (List.mem_cons_self ..)).trans later
  · rwa [List.mem_singleton.mp root]

theorem Timed.above_root {time : ℚ} {t : Event} {left right : BinaryTree Event}
    (timed : Timed (node t left right)) (earlier : time < t.time) :
    ∀ x ∈ t :: right.inorder, time < x.time := by
  intro x member
  rcases List.mem_cons.mp member with rfl | above
  · exact earlier
  · have ordered := (List.pairwise_append.mp timed).2.1
    exact earlier.trans_le ((List.pairwise_cons.mp ordered).1 x above)

theorem Timed.left {t : Event} {left right : BinaryTree Event} (timed : Timed (node t left right)) :
    Timed left := (List.pairwise_append.mp timed).1

theorem Timed.right {t : Event} {left right : BinaryTree Event} (timed : Timed (node t left right)) :
    Timed right := (List.pairwise_cons.mp (List.pairwise_append.mp timed).2.1).2

/-- ROTATE_RIGHT and ROTATE_LEFT keep the order of times. -/
theorem timed_rotate {t x : Event} {a b c : BinaryTree Event} :
    Timed (node t (node x a b) c) ↔ Timed (node x a (node t b c)) := by
  simp [Timed]

/-- What splaying sends left is not later than `time`. -/
theorem splay_left {time : ℚ} {t : BinaryTree Event} {l r : Spine} (timed : Timed t) :
    ∀ y ∈ (splay time t l r).1.inorder, y ∈ (fillRight l nil).inorder ∨ y.time ≤ time := by
  fun_induction splay time t l r with
  | case1 l r => exact fun y member => Or.inl member
  | case2 t right l r earlier => exact fun y member => Or.inl member
  | case3 t right l r earlier x xl xr inner ih => exact ih timed.left.left
  | case4 t right l r earlier x xl xr inner ih => exact ih timed.left
  | case5 t left l r later =>
    intro y member
    rw [fillRight_inorder, List.mem_append] at member
    exact member.imp_right (timed.below_root (not_lt.mp later) y)
  | case6 t left l r later x xl xr inner ih =>
    have rotated := timed_rotate.mpr timed
    intro y member
    rcases ih rotated.right y member with linked | early
    · rw [fillRight_cons, List.mem_append] at linked
      exact linked.imp_right (rotated.below_root inner y)
    · exact Or.inr early
  | case7 t left l r later x xl xr inner ih =>
    intro y member
    rcases ih timed.right y member with linked | early
    · rw [fillRight_cons, List.mem_append] at linked
      exact linked.imp_right (timed.below_root (not_lt.mp later) y)
    · exact Or.inr early

/-- What splaying sends right is later than `time`. -/
theorem splay_right {time : ℚ} {t : BinaryTree Event} {l r : Spine} (timed : Timed t) :
    ∀ y ∈ (splay time t l r).2.inorder, y ∈ (fillLeft r nil).inorder ∨ time < y.time := by
  fun_induction splay time t l r with
  | case1 l r => exact fun y member => Or.inl member
  | case2 t right l r earlier =>
    intro y member
    rw [fillLeft_inorder, List.mem_append] at member
    exact member.symm.imp_right (timed.above_root earlier y)
  | case3 t right l r earlier x xl xr inner ih =>
    have rotated := timed_rotate.mp timed
    intro y member
    rcases ih rotated.left y member with linked | late
    · rw [fillLeft_cons, List.mem_append] at linked
      exact linked.symm.imp_right (rotated.above_root inner y)
    · exact Or.inr late
  | case4 t right l r earlier x xl xr inner ih =>
    intro y member
    rcases ih timed.left y member with linked | late
    · rw [fillLeft_cons, List.mem_append] at linked
      exact linked.symm.imp_right (timed.above_root earlier y)
    · exact Or.inr late
  | case5 t left l r later => exact fun y member => Or.inl member
  | case6 t left l r later x xl xr inner ih => exact ih timed.right.right
  | case7 t left l r later x xl xr inner ih => exact ih timed.right

/-- Inserting into a tree is inserting into its events from left to right. -/
theorem insert_inorder (s : SplayScheduler) (n : Event) (timed : Timed s.root) :
    (s.insert n).root.inorder = ListScheduler.link n s.root.inorder := by
  unfold insert
  split
  · rename_i vacant
    rw [vacant]
    rfl
  · have early := @splay_left n.time s.root [] [] timed
    have late := @splay_right n.time s.root [] [] timed
    have joined := splay_inorder n.time s.root [] []
    simp only [fillRight, fillLeft, List.foldl_nil, BinaryTree.inorder_nil, List.nil_append,
      List.append_nil] at joined
    rw [← joined, BinaryTree.inorder_node, ListScheduler.link_append]
    · exact fun y member => (early y member).resolve_left (by simp [fillRight])
    · exact fun y member => (late y member).resolve_left (by simp [fillLeft])

theorem leftmost_head (t : Event) (left right : BinaryTree Event) :
    (node t left right).inorder.head? = some (leftmost t left) := by
  induction left generalizing t right with
  | nil => rfl
  | node l ll lr ihl _ =>
    have inner := ihl l lr
    rw [BinaryTree.inorder_node t, List.head?_append, inner]
    rfl

/-- The zig-zig loop takes off the first event and keeps the order of the rest. -/
theorem zigZig_inorder (l : Event) (ll lr : BinaryTree Event) :
    (node l ll lr).inorder = (zigZig l ll lr).1 :: (zigZig l ll lr).2.inorder := by
  fun_induction zigZig l ll lr with
  | case1 l lr => rfl
  | case2 l ll llr lr => simp
  | case3 l ll llr lr x xl xr rest ih =>
    rw [BinaryTree.inorder_node l, BinaryTree.inorder_node ll, ih]
    simp [rest]

theorem successor_inorder (q : Event) (ql qr : BinaryTree Event) :
    (node q ql qr).inorder = (successor q ql qr).1 :: (successor q ql qr).2.inorder := by
  fun_induction successor q ql qr with
  | case1 q qr => rfl
  | case2 q qr x xl xr rest ih =>
    rw [BinaryTree.inorder_node q, ih]
    rfl

/-- Joining the two subtrees of a removed event keeps their order. -/
theorem replacement_inorder (left right : BinaryTree Event) :
    (replacement left right).inorder = left.inorder ++ right.inorder := by
  fun_cases replacement left right with
  | case1 => simp
  | case2 => rfl
  | case3 => rfl
  | case4 =>
    rename_i p q ql qr pr rest _
    have moved := successor_inorder q ql qr
    rw [BinaryTree.inorder_node p, moved]
    simp [rest]

/-- The search of `cancel` reaches every event of a search tree and takes it,
and nothing else, out. -/
theorem unlink_inorder {e : Event} {t : BinaryTree Event} (search : t.Search (· < ·))
    (member : e ∈ t.inorder) :
    ∃ rest, unlink e t = some rest ∧ rest.inorder = t.inorder.erase e := by
  induction t with
  | nil => simp at member
  | node t left right ihl ihr =>
    obtain ⟨below, above, searchLeft, searchRight⟩ := search
    unfold unlink
    by_cases here : t = e
    · subst here
      refine ⟨replacement left right, if_pos rfl, ?_⟩
      have fresh : t ∉ left.inorder := fun inside => lt_irrefl t (below t inside)
      rw [replacement_inorder, BinaryTree.inorder_node, List.erase_append_right _ fresh,
        List.erase_cons_head]
    · have direction : e.time > t.time ∨ e.time = t.time ∧ e.uid > t.uid ↔ t < e := by
        rw [Event.lt_iff, eq_comm (a := t.time)]
      rw [if_neg here]
      rw [BinaryTree.inorder_node, List.mem_append, List.mem_cons] at member
      by_cases larger : t < e
      · have absent : e ∉ left.inorder := fun inside => lt_asymm larger (below e inside)
        have inside : e ∈ right.inorder := by
          rcases member with low | rfl | high
          · exact absurd low absent
          · exact absurd rfl here
          · exact high
        obtain ⟨rest, found, order⟩ := ihr searchRight inside
        refine ⟨node t left rest, by rw [if_pos (direction.mpr larger), found]; rfl, ?_⟩
        rw [BinaryTree.inorder_node, BinaryTree.inorder_node, order, List.erase_append_right _ absent,
          List.erase_cons_tail (by simpa using here)]
      · have inside : e ∈ left.inorder := by
          rcases member with low | rfl | high
          · exact low
          · exact absurd rfl here
          · exact absurd (above e high) larger
        obtain ⟨rest, found, order⟩ := ihl searchLeft inside
        refine ⟨node t rest right, by rw [if_neg (mt direction.mp larger), found]; rfl, ?_⟩
        rw [BinaryTree.inorder_node, BinaryTree.inorder_node, order, List.erase_append_left _ inside]

/-- A splay scheduler holds the events of a list scheduler, in its order. -/
structure Holds (s : SplayScheduler) (l : ListScheduler) : Prop where
  order : s.root.inorder = l.queue
  size : s.qsize = l.queue.length
  ordered : l.Ordered

theorem Holds.timed {s : SplayScheduler} {l : ListScheduler} (holds : s.Holds l) : Timed s.root := by
  unfold Timed
  rw [holds.order]
  exact holds.ordered.sorted.imp fun ordered => Event.time_le_of_le ordered.le

theorem Holds.search {s : SplayScheduler} {l : ListScheduler} (holds : s.Holds l) :
    s.root.Search (· < ·) := by
  rw [BinaryTree.search_iff_pairwise, holds.order]
  exact holds.ordered.sorted

theorem empty_holds : empty.Holds ListScheduler.empty := ⟨rfl, rfl, ListScheduler.empty_ordered⟩

theorem Holds.insert {s : SplayScheduler} {l : ListScheduler} (holds : s.Holds l) {e : Event}
    (admitted : l.Admissible (.insert e)) : (s.insert e).Holds (l.insert e) := by
  have order := insert_inorder s e holds.timed
  rw [holds.order] at order
  refine ⟨order, ?_, holds.ordered.insert admitted⟩
  have size : (s.insert e).qsize = s.qsize + 1 := by
    unfold SplayScheduler.insert
    split <;> rfl
  rw [size, holds.size, ListScheduler.insert, (ListScheduler.link_perm e l.queue).length_eq]
  simp

theorem Holds.cancel {s : SplayScheduler} {l : ListScheduler} (holds : s.Holds l) {e : Event}
    (member : e ∈ l.queue) :
    ∃ next, s.cancel e = some next ∧ next.Holds ⟨l.queue.erase e⟩ := by
  have positive := holds.ordered.queued e member
  obtain ⟨rest, found, order⟩ := unlink_inorder holds.search (by rwa [holds.order])
  rw [holds.order] at order
  refine ⟨⟨rest, s.qsize - 1⟩, ?_, order, ?_, holds.ordered.erase e⟩
  · unfold SplayScheduler.cancel
    rw [if_neg (by omega), found]
    rfl
  · have := List.length_pos_of_mem member
    simp only [List.length_erase_of_mem member, holds.size]
    omega

theorem Holds.head {s : SplayScheduler} {l : ListScheduler} (holds : s.Holds l) : s.head = l.head := by
  rw [ListScheduler.head, ← holds.order, SplayScheduler.head]
  split
  · rename_i vacant
    rw [vacant]
    rfl
  · rename_i t left right full
    rw [full, leftmost_head]

theorem Holds.deque {s : SplayScheduler} {l : ListScheduler} (holds : s.Holds l) :
    s.deque.2 = l.deque.2 ∧ s.deque.1.Holds l.deque.1 := by
  have order := holds.order
  have size := holds.size
  have ordered := holds.ordered
  obtain ⟨queue⟩ := l
  unfold SplayScheduler.deque
  split
  · rename_i vacant
    simp only [vacant, BinaryTree.inorder_nil] at order
    subst order
    exact ⟨rfl, holds⟩
  · rename_i t right full
    simp only [full, BinaryTree.inorder_node, BinaryTree.inorder_nil, List.nil_append] at order
    subst order
    simp only [List.length_cons] at size
    exact ⟨rfl, rfl, by simp only [ListScheduler.deque]; omega, ordered.tail⟩
  · rename_i t l ll lr right full
    rw [full, BinaryTree.inorder_node, zigZig_inorder, List.cons_append] at order
    simp only at order
    subst order
    simp only [List.length_cons] at size
    exact ⟨rfl, rfl, by simp only [ListScheduler.deque]; omega, ordered.tail⟩

/-- One operation on the splay tree answers as the list scheduler does. -/
theorem Holds.step {s : SplayScheduler} {l : ListScheduler} (holds : s.Holds l) {op : SchedulerOp}
    (admitted : l.Admissible op) :
    ∃ next lnext out, s.step op = some (next, out) ∧ l.step op = some (lnext, out) ∧ next.Holds lnext := by
  cases op with
  | insert e => exact ⟨_, _, none, rfl, rfl, holds.insert admitted⟩
  | cancel e =>
    obtain ⟨next, cancelled, after⟩ := holds.cancel admitted
    refine ⟨next, ⟨l.queue.erase e⟩, none, ?_, ?_, after⟩
    · simp only [SplayScheduler.step, cancelled, Option.map_some]
    · simp only [ListScheduler.step, holds.ordered.distinct.cancel admitted, Option.map_some]
  | head => exact ⟨s, l, l.head, by rw [← holds.head]; rfl, rfl, holds⟩
  | deque =>
    obtain ⟨same, after⟩ := holds.deque
    exact ⟨s.deque.1, l.deque.1, l.deque.2, by rw [← same]; rfl, rfl, after⟩

/-- Every run of the splay scheduler that cancels only queued events answers as
the list scheduler does, and ends in a search tree of the queued events. -/
theorem splay_refines_list {ops : List SchedulerOp}
    (admitted : ListScheduler.machine.Along ListScheduler.Admissible ListScheduler.empty ops) :
    ∃ s l answers, machine.run empty ops = some (s, answers) ∧
      ListScheduler.machine.run ListScheduler.empty ops = some (l, answers) ∧
      s.root.Search (· < ·) ∧ s.root.inorder = l.queue ∧ s.qsize = l.queue.length ∧
      l.queue.Pairwise (· < ·) := by
  obtain ⟨s, l, answers, run, lrun, holds⟩ := Machine.run_simulation (M := machine)
    (A := ListScheduler.machine) (R := Holds) (fun _ _ _ holds _ admitted => holds.step admitted) empty_holds
    (machine.along_trivial empty ops) admitted
  exact ⟨s, l, answers, run, lrun, holds.search, holds.order, holds.size, holds.ordered.sorted⟩

theorem splay_refines_list_sample :
    ∃ s l answers, machine.run empty [.insert ⟨3, 1⟩, .insert ⟨1, 2⟩, .insert ⟨3, 3⟩, .cancel ⟨3, 1⟩,
        .deque, .deque, .deque] = some (s, answers) ∧
      ListScheduler.machine.run ListScheduler.empty [.insert ⟨3, 1⟩, .insert ⟨1, 2⟩, .insert ⟨3, 3⟩,
        .cancel ⟨3, 1⟩, .deque, .deque, .deque] = some (l, answers) ∧
      s.root.Search (· < ·) ∧ s.root.inorder = l.queue ∧ s.qsize = l.queue.length ∧
      l.queue.Pairwise (· < ·) :=
  splay_refines_list (by decide)

end SplayScheduler

end Ns2
