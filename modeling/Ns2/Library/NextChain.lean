import Ns2.Library.Acyclic
import Mathlib.Data.List.Basic
import Mathlib.Logic.Function.Basic

/-! Lists that are linked by one pointer to the next element. -/

namespace NextChain

universe u

variable {ι : Type u} {next next' : ι → Option ι} {a b c : Option ι} {l r : List ι} {x y : ι}

/-- From the pointer `a` on, the elements are those of the list, and the pointer after them is `b`. -/
def Path (next : ι → Option ι) : Option ι → List ι → Option ι → Prop
  | a, [], b => a = b
  | a, x :: l, b => a = some x ∧ Path next (next x) l b

/-- The elements from a pointer on, up to a number of them. -/
def follow (next : ι → Option ι) : ℕ → Option ι → List ι
  | 0, _ => []
  | _, none => []
  | n + 1, some x => x :: follow next n (next x)

theorem path_append : Path next a (l ++ r) b ↔ ∃ c, Path next a l c ∧ Path next c r b := by
  induction l generalizing a with
  | nil => exact ⟨fun rest => ⟨a, rfl, rest⟩, fun ⟨_, same, rest⟩ => same ▸ rest⟩
  | cons x l ih =>
    constructor
    · rintro ⟨here, path⟩
      obtain ⟨c, left, right⟩ := ih.mp path
      exact ⟨c, ⟨here, left⟩, right⟩
    · rintro ⟨c, ⟨here, left⟩, right⟩
      exact ⟨here, ih.mpr ⟨c, left, right⟩⟩

theorem Path.congr (path : Path next a l b) (same : ∀ x ∈ l, next' x = next x) : Path next' a l b := by
  induction l generalizing a with
  | nil => exact path
  | cons x l ih =>
    refine ⟨path.1, ?_⟩
    rw [same x List.mem_cons_self]
    exact ih path.2 fun y member => same y (List.mem_cons_of_mem x member)

/-- A path goes on as far as another one to the end. -/
theorem Path.isPrefix (path : Path next a l b) (whole : Path next a r none) : l <+: r := by
  induction l generalizing a r with
  | nil => exact List.nil_prefix
  | cons x l ih =>
    cases r with
    | nil =>
      have none := path.1.symm.trans whole
      cases none
    | cons y r =>
      cases Option.some.inj (path.1.symm.trans whole.1)
      exact (List.prefix_cons_inj x).mpr (ih path.2 whole.2)

theorem Path.unique (path : Path next a l none) (path' : Path next a r none) : l = r :=
  (path.isPrefix path').eq_of_length_le (path'.isPrefix path).length_le

/-- A path that ends comes nowhere twice. -/
theorem Path.nodup (path : Path next a l none) : l.Nodup := by
  induction l generalizing a with
  | nil => exact List.nodup_nil
  | cons x l ih =>
    refine List.nodup_cons.mpr ⟨fun member => ?_, ih path.2⟩
    obtain ⟨front, back, rfl⟩ := List.append_of_mem member
    obtain ⟨c, _, again⟩ := path_append.mp path.2
    have length := congrArg List.length (path.2.unique again.2)
    simp only [List.length_append, List.length_cons] at length
    omega

/-- What a path from `x` leads to is reached from `x`. -/
theorem Path.reaches (path : Path next (next x) (l ++ [y]) b) : Relation.TransGen (fun x y => next x = some y) x y := by
  induction l generalizing x with
  | nil => exact .single path.1
  | cons z l ih => exact .head path.1 (ih path.2)

theorem Path.last_notMem (acyclic : Acyclic fun x y => next x = some y) (path : Path next a (l ++ [x]) b) : x ∉ l := by
  intro member
  obtain ⟨front, back, rfl⟩ := List.append_of_mem member
  rw [List.append_assoc, List.cons_append] at path
  obtain ⟨c, _, again⟩ := path_append.mp path
  exact acyclic x (Path.reaches again.2)

section Linking

variable [DecidableEq ι] {front back : List ι}

theorem Path.update (path : Path next a l b) (outside : x ∉ l) (p : Option ι) : Path (Function.update next x p) a l b :=
  path.congr fun _ member => Function.update_of_ne (ne_of_mem_of_not_mem member outside) _ _

/-- The element `y` is taken out behind `x`. -/
theorem Path.unlink (path : Path next a (front ++ [x] ++ y :: back) none) :
    Path (Function.update next x (next y)) a (front ++ [x] ++ back) none := by
  have distinct := path.nodup
  rw [List.append_assoc, List.nodup_append] at distinct
  obtain ⟨_, later, apart⟩ := distinct
  obtain ⟨c, first, second⟩ := path_append.mp path
  obtain ⟨d, before, here⟩ := path_append.mp first
  have early : x ∉ front := fun member => apart x member x List.mem_cons_self rfl
  have late : x ∉ back := fun member => (List.nodup_cons.mp later).1 (List.mem_cons_of_mem y member)
  refine path_append.mpr ⟨next y, path_append.mpr ⟨d, before.update early _, here.1, ?_⟩, second.2.update late _⟩
  exact Function.update_self ..

/-- The element `y` is put behind the last one. -/
theorem Path.link (path : Path next a (front ++ [x]) none) (fresh : y ∉ front ++ [x]) (ends : next y = none) :
    Path (Function.update next x (some y)) a (front ++ [x] ++ [y]) none := by
  have distinct := path.nodup
  rw [List.nodup_append] at distinct
  obtain ⟨d, before, here⟩ := path_append.mp path
  have early : x ∉ front := fun member => distinct.2.2 x member x List.mem_cons_self rfl
  have other : y ≠ x := fun same => fresh (List.mem_append_right front (List.mem_singleton.mpr same))
  refine path_append.mpr ⟨some y, path_append.mpr ⟨d, before.update early _, here.1, Function.update_self ..⟩, rfl, ?_⟩
  exact (Function.update_of_ne other _ _).trans ends

end Linking

theorem Path.follow (path : Path next a l none) {n : ℕ} (enough : l.length ≤ n) : follow next n a = l := by
  induction l generalizing a n with
  | nil =>
    rw [show a = none from path]
    cases n <;> rfl
  | cons x l ih =>
    obtain ⟨n, rfl⟩ : ∃ m, n = m + 1 := ⟨n - 1, by rw [List.length_cons] at enough; omega⟩
    rw [path.1, NextChain.follow, ih path.2 (Nat.le_of_succ_le_succ enough)]

end NextChain
