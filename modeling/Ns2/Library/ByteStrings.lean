import Mathlib.Data.List.Lex
import Mathlib.Data.Nat.Basic
import Mathlib.Order.Compare
import Mathlib.Tactic.Common

/-! Comparisons of bytes as the library functions of C make them. A list is taken to be followed by zeros. -/

namespace ByteStrings

variable {x y : BitVec 8} {a b u v : List (BitVec 8)} {n : ℕ}

def cmp (x y : BitVec 8) : Ordering := compare x.toNat y.toNat

def memcmp : ℕ → List (BitVec 8) → List (BitVec 8) → Ordering
  | 0, _, _ => .eq
  | n + 1, a, b => (cmp (a.headD 0) (b.headD 0)).then (memcmp n a.tail b.tail)

def strncmp : ℕ → List (BitVec 8) → List (BitVec 8) → Ordering
  | 0, _, _ => .eq
  | n + 1, a, b => (cmp (a.headD 0) (b.headD 0)).then (if a.headD 0 = 0 then .eq else strncmp n a.tail b.tail)

def strcmp : List (BitVec 8) → List (BitVec 8) → Ordering
  | [], b => cmp 0 (b.headD 0)
  | x :: a, b => (cmp x (b.headD 0)).then (if x = 0 then .eq else strcmp a b.tail)

theorem cmp_eq : cmp x y = .eq ↔ x = y := by
  rw [cmp, compare_eq_iff_eq]
  exact BitVec.toNat_inj

theorem cmp_lt : cmp x y = .lt ↔ x < y := by
  rw [cmp, compare_lt_iff_lt]
  exact BitVec.lt_def.symm

theorem cmp_swap (x y : BitVec 8) : (cmp x y).swap = cmp y x := by
  rw [cmp, cmp, Nat.compare_swap]

theorem memcmp_swap (n : ℕ) (a b : List (BitVec 8)) : (memcmp n a b).swap = memcmp n b a := by
  induction n generalizing a b with
  | zero => rfl
  | succ n ih => rw [memcmp, memcmp, Ordering.swap_then, cmp_swap, ih]

/-- Nothing differs if the first bytes are the same. -/
theorem memcmp_eq (inA : n ≤ a.length) (inB : n ≤ b.length) : memcmp n a b = .eq ↔ a.take n = b.take n := by
  induction n generalizing a b with
  | zero => exact iff_of_true rfl rfl
  | succ n ih =>
    obtain ⟨x, a, rfl⟩ := List.exists_cons_of_length_pos (Nat.zero_lt_of_lt inA)
    obtain ⟨y, b, rfl⟩ := List.exists_cons_of_length_pos (Nat.zero_lt_of_lt inB)
    simp only [memcmp, List.headD_cons, List.tail_cons, List.take_succ_cons, List.cons.injEq, Ordering.then_eq_eq, cmp_eq,
      ih (Nat.le_of_succ_le_succ inA) (Nat.le_of_succ_le_succ inB)]

/-- Two blocks that agree as far as both go are the one a prefix of the other. -/
theorem memcmp_min_eq : memcmp (min a.length b.length) a b = .eq ↔ a <+: b ∨ b <+: a := by
  rw [memcmp_eq (min_le_left _ _) (min_le_right _ _)]
  rcases le_total a.length b.length with shorter | shorter
  · rw [min_eq_left shorter, List.take_length, ← List.prefix_iff_eq_take]
    refine ⟨Or.inl, fun either => either.elim id fun longer => ?_⟩
    have same : b = a := longer.eq_of_length_le shorter
    exact same ▸ List.prefix_refl b
  · rw [min_eq_right shorter, List.take_length, eq_comm, ← List.prefix_iff_eq_take]
    refine ⟨Or.inr, fun either => either.elim (fun longer => ?_) id⟩
    have same : a = b := longer.eq_of_length_le shorter
    exact same ▸ List.prefix_refl a

section Text

/-! Two texts are compared up to the zero that ends the shorter one, at the latest. -/

theorem cmp_zero (nonzero : x ≠ 0) : cmp 0 x = .lt ∧ cmp x 0 = .gt := by
  have positive : (0 : BitVec 8) < x := by
    rw [BitVec.lt_def]
    exact Nat.pos_of_ne_zero fun zero => nonzero (BitVec.eq_of_toNat_eq zero)
  have less := cmp_lt.mpr positive
  exact ⟨less, by rw [← cmp_swap, less]; rfl⟩

theorem strcmp_nil_nil : strcmp [0] [0] = .eq := rfl

theorem strcmp_nil_cons (nonzero : y ≠ 0) : strcmp [0] (y :: v) = .lt := by
  rw [strcmp, List.headD_cons, (cmp_zero nonzero).1]
  rfl

theorem strcmp_cons_nil (nonzero : x ≠ 0) : strcmp (x :: u) [0] = .gt := by
  rw [strcmp, List.headD_cons, (cmp_zero nonzero).2]
  rfl

theorem strcmp_cons_cons (nonzero : x ≠ 0) : strcmp (x :: u) (y :: v) = (cmp x y).then (strcmp u v) := by
  rw [strcmp, if_neg nonzero]
  rfl

/-- Induction on two texts at once. -/
theorem text_induction {P : List (BitVec 8) → List (BitVec 8) → Prop} (nil_nil : P [] []) (nil_cons : ∀ y v, y ≠ 0 → P [] (y :: v))
    (cons_nil : ∀ x u, x ≠ 0 → P (x :: u) []) (cons_cons : ∀ x u y v, x ≠ 0 → y ≠ 0 → P u v → P (x :: u) (y :: v))
    (nonzeroU : 0 ∉ u) (nonzeroV : 0 ∉ v) : P u v := by
  induction u generalizing v with
  | nil =>
    cases v with
    | nil => exact nil_nil
    | cons y v => exact nil_cons y v fun zero => nonzeroV (zero ▸ List.mem_cons_self)
  | cons x u ih =>
    have nonzero : x ≠ 0 := fun zero => nonzeroU (zero ▸ List.mem_cons_self)
    cases v with
    | nil => exact cons_nil x u nonzero
    | cons y v =>
      have rest := ih (fun inside => nonzeroU (List.mem_cons_of_mem x inside)) fun inside => nonzeroV (List.mem_cons_of_mem y inside)
      exact cons_cons x u y v nonzero (fun zero => nonzeroV (zero ▸ List.mem_cons_self)) rest

theorem strcmp_eq (nonzeroU : 0 ∉ u) (nonzeroV : 0 ∉ v) : strcmp (u ++ [0]) (v ++ [0]) = .eq ↔ u = v := by
  refine text_induction (P := fun u v => strcmp (u ++ [0]) (v ++ [0]) = .eq ↔ u = v) ?_ ?_ ?_ ?_ nonzeroU nonzeroV
  · exact iff_of_true strcmp_nil_nil rfl
  · intro y v nonzero
    rw [List.nil_append, List.cons_append, strcmp_nil_cons nonzero]
    exact iff_of_false (by decide) (List.cons_ne_nil y v).symm
  · intro x u nonzero
    rw [List.nil_append, List.cons_append, strcmp_cons_nil nonzero]
    exact iff_of_false (by decide) (List.cons_ne_nil x u)
  · intro x u y v nonzero _ rest
    rw [List.cons_append, List.cons_append, strcmp_cons_cons nonzero, Ordering.then_eq_eq, cmp_eq, rest, List.cons.injEq]

theorem strcmp_lt (nonzeroU : 0 ∉ u) (nonzeroV : 0 ∉ v) : strcmp (u ++ [0]) (v ++ [0]) = .lt ↔ u ++ [0] < v ++ [0] := by
  refine text_induction (P := fun u v => strcmp (u ++ [0]) (v ++ [0]) = .lt ↔ u ++ [0] < v ++ [0]) ?_ ?_ ?_ ?_ nonzeroU nonzeroV
  · exact iff_of_false (by decide) (by decide)
  · intro y v nonzero
    rw [List.nil_append, List.cons_append, strcmp_nil_cons nonzero]
    exact iff_of_true rfl (List.cons_lt_cons_iff.mpr (Or.inl (cmp_lt.mp (cmp_zero nonzero).1)))
  · intro x u nonzero
    rw [List.nil_append, List.cons_append, strcmp_cons_nil nonzero, List.cons_lt_cons_iff]
    refine iff_of_false (by decide) fun less => ?_
    rcases less with below | ⟨zero, _⟩
    · have contrary := cmp_lt.mpr below
      rw [(cmp_zero nonzero).2] at contrary
      cases contrary
    · exact nonzero zero
  · intro x u y v nonzero _ rest
    rw [List.cons_append, List.cons_append, strcmp_cons_cons nonzero, Ordering.then_eq_lt, cmp_lt, cmp_eq, rest, List.cons_lt_cons_iff]

theorem strcmp_swap (nonzeroU : 0 ∉ u) (nonzeroV : 0 ∉ v) : (strcmp (u ++ [0]) (v ++ [0])).swap = strcmp (v ++ [0]) (u ++ [0]) := by
  refine text_induction (P := fun u v => (strcmp (u ++ [0]) (v ++ [0])).swap = strcmp (v ++ [0]) (u ++ [0])) rfl ?_ ?_ ?_ nonzeroU nonzeroV
  · intro y v nonzero
    rw [List.nil_append, List.cons_append, strcmp_nil_cons nonzero, strcmp_cons_nil nonzero]
    rfl
  · intro x u nonzero
    rw [List.nil_append, List.cons_append, strcmp_cons_nil nonzero, strcmp_nil_cons nonzero]
    rfl
  · intro x u y v nonzero nonzero' rest
    rw [List.cons_append, List.cons_append, strcmp_cons_cons nonzero, strcmp_cons_cons nonzero', Ordering.swap_then, cmp_swap, rest]

/-- A bound that reaches the end of the shorter text makes no difference. -/
theorem strncmp_eq_strcmp (nonzeroU : 0 ∉ u) (nonzeroV : 0 ∉ v) (reaches : min u.length v.length < n) :
    strncmp n (u ++ [0]) (v ++ [0]) = strcmp (u ++ [0]) (v ++ [0]) := by
  revert n
  refine text_induction (P := fun u v => ∀ {n}, min u.length v.length < n → strncmp n (u ++ [0]) (v ++ [0]) = strcmp (u ++ [0]) (v ++ [0]))
    ?_ ?_ ?_ ?_ nonzeroU nonzeroV
  · intro n reaches
    obtain ⟨n, rfl⟩ : ∃ m, n = m + 1 := ⟨n - 1, by omega⟩
    rfl
  · intro y v _ n reaches
    obtain ⟨n, rfl⟩ : ∃ m, n = m + 1 := ⟨n - 1, by omega⟩
    rfl
  · intro x u nonzero n reaches
    obtain ⟨n, rfl⟩ : ∃ m, n = m + 1 := ⟨n - 1, by omega⟩
    rw [List.nil_append, List.cons_append, strcmp_cons_nil nonzero, strncmp, List.headD_cons, List.headD_cons, (cmp_zero nonzero).2]
    rfl
  · intro x u y v nonzero _ rest n reaches
    obtain ⟨n, rfl⟩ : ∃ m, n = m + 1 := ⟨n - 1, by omega⟩
    have shorter : min u.length v.length < n := by
      simp only [List.length_cons] at reaches
      omega
    rw [List.cons_append, List.cons_append, strcmp_cons_cons nonzero, strncmp, List.headD_cons, List.headD_cons, if_neg nonzero,
      List.tail_cons, List.tail_cons, rest shorter]

end Text

end ByteStrings
