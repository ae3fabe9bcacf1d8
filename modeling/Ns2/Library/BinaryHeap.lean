import Mathlib.Data.Finset.Range
import Mathlib.Data.Fintype.Basic
import Mathlib.Logic.Equiv.Basic
import Mathlib.Order.Lattice

universe u v

namespace BinaryHeap

variable {α : Type u} {κ : Type v} [LinearOrder κ]

def parent (i : ℕ) : ℕ := (i - 1) / 2

def left (i : ℕ) : ℕ := i * 2 + 1

def right (i : ℕ) : ℕ := (i + 1) * 2

def swap (a : ℕ → α) (i j : ℕ) : ℕ → α :=
  fun k => if k = i then a j else if k = j then a i else a k

/-- Moves the hole `i` towards the root past every element that `x` goes
before, and puts `x` in it. -/
def siftUp (less : α → α → Bool) (x : α) (a : ℕ → α) (i : ℕ) : ℕ → α :=
  if 0 < i ∧ less x (a (parent i)) then
    siftUp less x (Function.update a i (a (parent i))) (parent i)
  else Function.update a i x
termination_by i
decreasing_by unfold parent; omega

/-- Swaps the element at `i` with its ancestors until it is the root. -/
def toRoot (a : ℕ → α) (i : ℕ) : ℕ → α :=
  if 0 < i then toRoot (swap a i (parent i)) (parent i) else a
termination_by i
decreasing_by unfold parent; omega

/-- The child that is compared with its parent `i` in a heap of `n` elements,
`i` itself when it has no child. -/
def candidate (less : α → α → Bool) (a : ℕ → α) (n i : ℕ) : ℕ :=
  if right i < n then
    if less (a (left i)) (a (right i)) then left i else right i
  else if left i < n then left i else i

theorem candidate_ge (less : α → α → Bool) (a : ℕ → α) (n i : ℕ) : i ≤ candidate less a n i := by
  unfold candidate left right
  split_ifs <;> omega

/-- Moves the element at `i` down past every smaller candidate. -/
def siftDown (less : α → α → Bool) (n : ℕ) (a : ℕ → α) (i : ℕ) : ℕ → α :=
  if i < n then
    let x := candidate less a n i
    if x ≠ i ∧ less (a x) (a i) then siftDown less n (swap a i x) x else a
  else a
termination_by n - i
decreasing_by
  have above := candidate_ge less a n i
  omega

/-- The first `n` elements, with multiplicity. -/
def contents (a : ℕ → α) (n : ℕ) : Multiset α := (Multiset.range n).map a

theorem mem_contents {a : ℕ → α} {n : ℕ} {x : α} : x ∈ contents a n ↔ ∃ i < n, a i = x := by
  simp [contents]

theorem contents_succ (a : ℕ → α) (n : ℕ) : contents a (n + 1) = a n ::ₘ contents a n := by
  simp [contents, Multiset.range_succ]

theorem contents_congr {a b : ℕ → α} {n : ℕ} (same : ∀ i < n, a i = b i) : contents a n = contents b n :=
  Multiset.map_congr rfl fun i member => same i (Multiset.mem_range.mp member)

theorem contents_update_ge (a : ℕ → α) {n i : ℕ} (x : α) (outside : n ≤ i) :
    contents (Function.update a i x) n = contents a n :=
  contents_congr fun j inside => Function.update_of_ne (by omega) _ _

theorem swap_eq_comp (a : ℕ → α) (i j : ℕ) : swap a i j = a ∘ Equiv.swap i j := by
  funext k
  simp only [swap, Function.comp_apply, Equiv.swap_apply_def, apply_ite a]

theorem contents_swap (a : ℕ → α) {n i j : ℕ} (hi : i < n) (hj : j < n) :
    contents (swap a i j) n = contents a n := by
  have permuted : (Multiset.range n).map (Equiv.swap i j) = Multiset.range n := by
    refine (Multiset.Nodup.ext (Multiset.Nodup.map (Equiv.injective _) (Multiset.nodup_range n))
      (Multiset.nodup_range n)).mpr fun k => ?_
    simp only [Multiset.mem_map, Multiset.mem_range]
    constructor
    · rintro ⟨k, bound, rfl⟩
      rw [Equiv.swap_apply_def]
      split_ifs <;> omega
    · intro bound
      refine ⟨Equiv.swap i j k, ?_, Equiv.swap_apply_self i j k⟩
      rw [Equiv.swap_apply_def]
      split_ifs <;> omega
  rw [contents, contents, swap_eq_comp, ← Multiset.map_map, permuted]

/-- Moving the hole up is a swap once the hole is filled. -/
theorem update_move (a : ℕ → α) (x : α) {i : ℕ} (positive : 0 < i) :
    Function.update (Function.update a i (a (parent i))) (parent i) x =
      swap (Function.update a i x) i (parent i) := by
  have other : parent i ≠ i := by unfold parent; omega
  funext k
  by_cases atParent : k = parent i
  · rw [atParent, Function.update_self, swap, if_neg other, if_pos rfl, Function.update_self]
  · rw [Function.update_of_ne atParent, swap, if_neg atParent]
    by_cases atHole : k = i
    · rw [atHole, Function.update_self, if_pos rfl, Function.update_of_ne other]
    · rw [if_neg atHole]
      simp only [Function.update_of_ne atHole]

@[simp] theorem siftUp_root (less : α → α → Bool) (x : α) (a : ℕ → α) :
    siftUp less x a 0 = Function.update a 0 x := by
  rw [siftUp, if_neg (fun moved => lt_irrefl 0 moved.1)]

theorem siftUp_contents (less : α → α → Bool) (x : α) (a : ℕ → α) {n i : ℕ} (bound : i < n) :
    contents (siftUp less x a i) n = contents (Function.update a i x) n := by
  fun_induction siftUp less x a i with
  | case1 a i moved ih =>
    have inside : parent i < n := by unfold parent; omega
    rw [ih inside, update_move a x moved.1, contents_swap _ bound inside]
  | case2 a i stays => rfl

theorem toRoot_contents (a : ℕ → α) {n i : ℕ} (bound : i < n) :
    contents (toRoot a i) n = contents a n := by
  fun_induction toRoot a i with
  | case1 a i moved ih =>
    have inside : parent i < n := by unfold parent; omega
    rw [ih inside, contents_swap _ bound inside]
  | case2 a i stays => rfl

theorem toRoot_zero (a : ℕ → α) (i : ℕ) : toRoot a i 0 = a i := by
  fun_induction toRoot a i with
  | case1 a i moved ih =>
    rw [ih]
    unfold swap parent
    split_ifs <;> simp_all
  | case2 a i stays => rw [show i = 0 by omega]

theorem candidate_lt (less : α → α → Bool) (a : ℕ → α) {n i : ℕ} (bound : i < n) :
    candidate less a n i < n := by
  unfold candidate
  split_ifs <;> first | assumption | (unfold left right at *; omega)

theorem siftDown_contents (less : α → α → Bool) (n : ℕ) (a : ℕ → α) (i : ℕ) :
    contents (siftDown less n a i) n = contents a n := by
  fun_induction siftDown less n a i with
  | case1 a i bound x moved ih => rw [ih, contents_swap _ bound (candidate_lt less a bound)]
  | case2 => rfl
  | case3 => rfl

variable (key : α → κ)

/-- No element of the first `n` is smaller than its parent. -/
def Ordered (a : ℕ → α) (n : ℕ) : Prop :=
  ∀ i, 0 < i → i < n → key (a (parent i)) ≤ key (a i)

/-- The order of a heap whose place `hole` is to be filled: the pairs off the
hole are in order, and so are the parent and the children of the hole. -/
structure HoleOrdered (a : ℕ → α) (n hole : ℕ) : Prop where
  off : ∀ i, 0 < i → i < n → i ≠ hole → parent i ≠ hole → key (a (parent i)) ≤ key (a i)
  across : 0 < hole → ∀ c, 0 < c → c < n → parent c = hole → key (a (parent hole)) ≤ key (a c)

variable {key}

theorem Ordered.root_le {a : ℕ → α} {n : ℕ} (ordered : Ordered key a n) {i : ℕ} (bound : i < n) :
    key (a 0) ≤ key (a i) := by
  induction i using Nat.strongRecOn with
  | ind i ih =>
    by_cases positive : 0 < i
    · have smaller : parent i < i := by unfold parent; omega
      exact (ih (parent i) smaller (by omega)).trans (ordered i positive bound)
    · rw [show i = 0 by omega]

theorem Ordered.hole {a : ℕ → α} {n : ℕ} (ordered : Ordered key a n) {hole : ℕ} (bound : hole < n) :
    HoleOrdered key a n hole where
  off i positive inside _ _ := ordered i positive inside
  across positive c cpositive cinside child := by
    have step := ordered c cpositive cinside
    rw [child] at step
    exact (ordered hole positive bound).trans step

/-- What stands in the hole does not matter. -/
theorem HoleOrdered.update {a : ℕ → α} {n hole : ℕ} (ordered : HoleOrdered key a n hole) (x : α) :
    HoleOrdered key (Function.update a hole x) n hole where
  off i positive inside other otherParent := by
    rw [Function.update_of_ne other, Function.update_of_ne otherParent]
    exact ordered.off i positive inside other otherParent
  across positive c cpositive cinside child := by
    have above : parent hole ≠ hole := by unfold parent; omega
    have below : c ≠ hole := by rintro rfl; exact above child
    rw [Function.update_of_ne above, Function.update_of_ne below]
    exact ordered.across positive c cpositive cinside child

/-- The hole moves up when its parent comes down into it. -/
theorem HoleOrdered.up {a : ℕ → α} {n hole : ℕ} (ordered : HoleOrdered key a n hole)
    (positive : 0 < hole) (bound : hole < n) :
    HoleOrdered key (Function.update a hole (a (parent hole))) n (parent hole) := by
  have above : parent hole < hole := by unfold parent; omega
  constructor
  · intro i ipositive inside other otherParent
    have notHole : i ≠ hole := by rintro rfl; exact otherParent rfl
    rw [Function.update_of_ne notHole]
    by_cases child : parent i = hole
    · rw [child, Function.update_self]
      exact ordered.across positive i ipositive inside child
    · rw [Function.update_of_ne child]
      exact ordered.off i ipositive inside notHole child
  · intro ppositive c cpositive cinside child
    have grand : parent (parent hole) < parent hole := by unfold parent at *; omega
    have edge := ordered.off (parent hole) ppositive (by omega) (by omega) (by omega)
    rw [Function.update_of_ne (show parent (parent hole) ≠ hole by omega)]
    by_cases same : c = hole
    · rw [same, Function.update_self]
      exact edge
    · rw [Function.update_of_ne same]
      have lower := ordered.off c cpositive cinside same (by omega)
      rw [child] at lower
      exact edge.trans lower

/-- A hole filled by an element between its parent and its children. -/
theorem HoleOrdered.fill {a : ℕ → α} {n hole : ℕ} {x : α} (ordered : HoleOrdered key a n hole)
    (above : 0 < hole → key (a (parent hole)) ≤ key x)
    (below : ∀ c, 0 < c → c < n → parent c = hole → key x ≤ key (a c)) :
    Ordered key (Function.update a hole x) n := by
  intro i positive inside
  by_cases same : i = hole
  · subst same
    rw [Function.update_self, Function.update_of_ne (by unfold parent; omega)]
    exact above positive
  · rw [Function.update_of_ne same]
    by_cases child : parent i = hole
    · rw [child, Function.update_self]
      exact below i positive inside child
    · rw [Function.update_of_ne child]
      exact ordered.off i positive inside same child

section Lawful

variable {less : α → α → Bool} (lawful : ∀ x y, less x y = true ↔ key x < key y)
include lawful

theorem siftUp_ordered {x : α} {a : ℕ → α} {n i : ℕ} (bound : i < n) (ordered : HoleOrdered key a n i)
    (below : ∀ c, 0 < c → c < n → parent c = i → key x ≤ key (a c)) :
    Ordered key (siftUp less x a i) n := by
  fun_induction siftUp less x a i with
  | case1 a i moved ih =>
    obtain ⟨positive, smaller⟩ := moved
    have before := (lawful _ _).mp smaller
    refine ih (by unfold parent; omega) (ordered.up positive bound) fun c cpositive cinside child => ?_
    by_cases same : c = i
    · rw [same, Function.update_self]
      exact before.le
    · rw [Function.update_of_ne same]
      have above : parent c ≠ i := by unfold parent at *; omega
      have lower := ordered.off c cpositive cinside same above
      rw [child] at lower
      exact before.le.trans lower
  | case2 a i stays =>
    refine ordered.fill (fun positive => ?_) below
    rw [← not_lt, ← lawful]
    exact fun smaller => stays ⟨positive, smaller⟩

theorem candidate_le {a : ℕ → α} {n i c : ℕ} (positive : 0 < c) (inside : c < n) (child : parent c = i) :
    key (a (candidate less a n i)) ≤ key (a c) := by
  have sides : c = left i ∨ c = right i := by unfold parent left right at *; omega
  unfold candidate
  split_ifs with hasRight smaller hasLeft
  · rcases sides with rfl | rfl
    · rfl
    · exact ((lawful _ _).mp smaller).le
  · rcases sides with rfl | rfl
    · rw [← not_lt, ← lawful]
      exact smaller
    · rfl
  · rcases sides with rfl | rfl
    · rfl
    · exact absurd inside hasRight
  · unfold left right at *
    omega

theorem siftDown_ordered {a : ℕ → α} {n i : ℕ} (ordered : HoleOrdered key a n i)
    (above : 0 < i → key (a (parent i)) ≤ key (a i)) : Ordered key (siftDown less n a i) n := by
  fun_induction siftDown less n a i with
  | case1 a i bound x moved ih =>
    obtain ⟨other, smaller⟩ := moved
    have before := (lawful _ _).mp smaller
    have inside : x < n := candidate_lt less a bound
    have larger : i < x := lt_of_le_of_ne (candidate_ge less a n i) (Ne.symm other)
    have child : parent x = i := by
      unfold x candidate parent left right at *
      split_ifs at * <;> omega
    refine ih ⟨?_, ?_⟩ ?_
    · intro j positive jinside notx parentx
      unfold swap
      rw [if_neg notx, if_neg parentx]
      by_cases atHole : j = i
      · rw [if_pos atHole, if_neg (by rw [atHole]; unfold parent; omega), atHole]
        exact ordered.across (by omega) x (by omega) inside child
      · rw [if_neg atHole]
        by_cases below : parent j = i
        · rw [if_pos below]
          exact candidate_le lawful positive jinside below
        · rw [if_neg below]
          exact ordered.off j positive jinside atHole below
    · intro xpositive c cpositive cinside grandchild
      have deeper : x < c := by unfold parent at grandchild; omega
      unfold swap
      rw [if_pos child, if_neg (by omega), if_neg (by omega)]
      have lower := ordered.off c cpositive cinside (by omega) (by omega)
      rwa [grandchild] at lower
    · intro _
      unfold swap
      rw [if_pos child, if_neg (by omega), if_pos rfl]
      exact before.le
  | case2 a i bound x stays =>
    have filled := ordered.fill above fun c positive inside child => ?_
    · rwa [Function.update_eq_self] at filled
    · have least := candidate_le (a := a) lawful positive inside child
      by_cases same : x = i
      · have bigger := candidate_ge less a n i
        have sides : c = left i ∨ c = right i := by unfold parent left right at *; omega
        unfold x candidate left right at *
        split_ifs at * <;> omega
      · exact le_trans (not_lt.mp fun smaller => stays ⟨same, (lawful _ _).mpr smaller⟩) least
  | case3 a i outside =>
    have filled := ordered.fill above fun c positive inside child => ?_
    · rwa [Function.update_eq_self] at filled
    · unfold parent at child
      omega

end Lawful

/-- An element brought to the root leaves the rest of the heap in order. -/
theorem toRoot_hole {a : ℕ → α} {n i : ℕ} (bound : i < n) (ordered : HoleOrdered key a n i) :
    HoleOrdered key (toRoot a i) n 0 := by
  fun_induction toRoot a i with
  | case1 a i moved ih =>
    refine ih (by unfold parent; omega) ?_
    have up := (ordered.up moved bound).update (a i)
    rwa [update_move a (a i) moved, Function.update_eq_self] at up
  | case2 a i stays => rwa [show i = 0 by omega] at ordered

end BinaryHeap
