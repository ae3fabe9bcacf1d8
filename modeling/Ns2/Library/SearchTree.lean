import Mathlib.Data.Tree.Basic
import Mathlib.Data.List.Basic

universe u

namespace BinaryTree

variable {α : Type u}

/-- The values of a tree from left to right. -/
def inorder : BinaryTree α → List α
  | .nil => []
  | .node a l r => l.inorder ++ a :: r.inorder

@[simp] theorem inorder_nil : (nil : BinaryTree α).inorder = [] := rfl

@[simp] theorem inorder_node (a : α) (l r : BinaryTree α) :
    (node a l r).inorder = l.inorder ++ a :: r.inorder := rfl

/-- A search tree for `r`: every value stands after its whole left subtree
and before its whole right subtree. -/
def Search (r : α → α → Prop) : BinaryTree α → Prop
  | .nil => True
  | .node a left right => (∀ x ∈ left.inorder, r x a) ∧ (∀ x ∈ right.inorder, r a x) ∧
      left.Search r ∧ right.Search r

theorem search_of_pairwise {r : α → α → Prop} {t : BinaryTree α} (sorted : t.inorder.Pairwise r) :
    t.Search r := by
  induction t with
  | nil => trivial
  | node a left right ihl ihr =>
    rw [inorder_node, List.pairwise_append, List.pairwise_cons] at sorted
    obtain ⟨lower, ⟨above, upper⟩, cross⟩ := sorted
    exact ⟨fun x member => cross x member a (List.mem_cons_self ..), above, ihl lower, ihr upper⟩

theorem pairwise_of_search {r : α → α → Prop} [IsTrans α r] {t : BinaryTree α} (search : t.Search r) :
    t.inorder.Pairwise r := by
  induction t with
  | nil => exact .nil
  | node a left right ihl ihr =>
    obtain ⟨below, above, searchLeft, searchRight⟩ := search
    rw [inorder_node, List.pairwise_append, List.pairwise_cons]
    refine ⟨ihl searchLeft, ⟨above, ihr searchRight⟩, fun x inLeft y member => ?_⟩
    rcases List.mem_cons.mp member with rfl | inRight
    · exact below x inLeft
    · exact IsTrans.trans _ _ _ (below x inLeft) (above y inRight)

theorem search_iff_pairwise {r : α → α → Prop} [IsTrans α r] {t : BinaryTree α} :
    t.Search r ↔ t.inorder.Pairwise r :=
  ⟨pairwise_of_search, search_of_pairwise⟩

end BinaryTree
