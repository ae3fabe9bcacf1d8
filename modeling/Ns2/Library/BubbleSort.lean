import Mathlib.Order.Lattice
import Mathlib.Data.List.Basic

universe u

namespace BubbleSort

variable {α : Type u} [LinearOrder α]

/-- Compares `n` neighbours from the left and swaps those that increase. -/
def pass : ℕ → List α → List α
  | n + 1, a :: b :: l => if a < b then b :: pass n (a :: l) else a :: pass n (b :: l)
  | _, l => l

/-- Passes that get shorter, over the first `n` entries. -/
def sort : ℕ → List α → List α
  | 0, l => l
  | n + 1, l => sort n (pass n l)

/-- A pass takes a least entry to its end. -/
theorem pass_spec {n : ℕ} {l : List α} (short : n < l.length) : ∃ front m,
    pass n l = front ++ m :: l.drop (n + 1) ∧ (front ++ [m]).Perm (l.take (n + 1)) ∧ ∀ x ∈ front, m ≤ x := by
  induction n generalizing l with
  | zero =>
    cases l with
    | nil => exact absurd short (Nat.not_lt_zero 0)
    | cons a l => exact ⟨[], a, by simp [pass], by simp, by simp⟩
  | succ n ih =>
    match l with
    | [] => exact absurd short (Nat.not_lt_zero _)
    | [a] => exact absurd short (by simp)
    | a :: b :: l =>
      have shorter : n < (a :: l).length := by simpa using short
      rw [pass]
      split_ifs with increase
      · obtain ⟨front, m, result, perm, least⟩ := ih shorter
        have first : a ∈ front ++ [m] := perm.symm.subset (by simp)
        have bound : m ≤ a := (List.mem_append.mp first).elim (least a) fun last => (List.mem_singleton.mp last).ge
        refine ⟨b :: front, m, by rw [result]; rfl, ?_, fun x member => ?_⟩
        · exact (perm.cons b).trans (List.Perm.swap a b _)
        · rcases List.mem_cons.mp member with rfl | inside
          · exact bound.trans increase.le
          · exact least x inside
      · obtain ⟨front, m, result, perm, least⟩ := ih (l := b :: l) shorter
        have first : b ∈ front ++ [m] := perm.symm.subset (by simp)
        have bound : m ≤ b := (List.mem_append.mp first).elim (least b) fun last => (List.mem_singleton.mp last).ge
        refine ⟨a :: front, m, by rw [result]; rfl, perm.cons a, fun x member => ?_⟩
        rcases List.mem_cons.mp member with rfl | inside
        · exact bound.trans (not_lt.mp increase)
        · exact least x inside

theorem sort_spec {n : ℕ} {front back : List α} (length : front.length = n) (sorted : back.Pairwise (· ≥ ·))
    (above : ∀ x ∈ front, ∀ y ∈ back, y ≤ x) :
    (sort n (front ++ back)).Perm (front ++ back) ∧ (sort n (front ++ back)).Pairwise (· ≥ ·) := by
  induction n generalizing front back with
  | zero =>
    cases List.length_eq_zero_iff.mp length
    exact ⟨List.Perm.refl _, sorted⟩
  | succ n ih =>
    obtain ⟨front', m, result, perm, least⟩ := pass_spec (n := n) (l := front ++ back)
      (by rw [List.length_append]; omega)
    rw [← length] at result perm
    rw [List.drop_left] at result
    rw [List.take_left] at perm
    have whole : (front' ++ m :: back).Perm (front ++ back) := by
      simpa using perm.append_right back
    have shorter : front'.length = n := by
      have same := perm.length_eq
      rw [List.length_append, List.length_singleton, length] at same
      omega
    have last : m ∈ front := perm.subset (by simp)
    have next := ih shorter (List.pairwise_cons.mpr ⟨above m last, sorted⟩) fun x inFront y inBack => by
      rcases List.mem_cons.mp inBack with rfl | later
      · exact least x inFront
      · exact above x (perm.subset (List.mem_append_left _ inFront)) y later
    rw [sort, show pass n (front ++ back) = front' ++ m :: back by simpa [length] using result]
    exact ⟨next.1.trans whole, next.2⟩

theorem sort_whole (l : List α) : (sort l.length l).Perm l ∧ (sort l.length l).Pairwise (· ≥ ·) := by
  have whole : (sort l.length (l ++ [])).Perm (l ++ []) ∧ (sort l.length (l ++ [])).Pairwise (· ≥ ·) :=
    sort_spec rfl List.Pairwise.nil (by simp)
  rwa [List.append_nil] at whole

theorem sort_perm (l : List α) : (sort l.length l).Perm l := (sort_whole l).1

theorem sort_sorted (l : List α) : (sort l.length l).Pairwise (· ≥ ·) := (sort_whole l).2

end BubbleSort
