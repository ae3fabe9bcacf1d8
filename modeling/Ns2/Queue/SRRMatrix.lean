import Ns2.Queue.SRR

namespace Ns2

namespace WSS

theorem rawScan_congr {i j N n : ℕ} (same : ∀ e, i % 2 ^ e = 0 ↔ j % 2 ^ e = 0) : rawScan i N n = rawScan j N n := by
  induction n with
  | zero => rfl
  | succ n ih =>
    unfold rawScan
    rw [ih]
    simp only [ne_eq, same]

theorem value_top : ∀ k < 16, rawScan (2 ^ k) maxOrder (maxOrder - 1) = k + 1 := by decide

theorem value_again {k i : ℕ} (positive : 0 < i) (below : i < 2 ^ k) :
    rawScan (2 ^ k + i) maxOrder (maxOrder - 1) = rawScan i maxOrder (maxOrder - 1) := by
  refine rawScan_congr fun e => ?_
  rcases le_or_gt e k with low | high
  · have whole : 2 ^ k % 2 ^ e = 0 := Nat.mod_eq_zero_of_dvd (pow_dvd_pow 2 low)
    rw [Nat.add_mod, whole, zero_add, Nat.mod_mod]
  · have more : 2 ^ (k + 1) ≤ 2 ^ e := Nat.pow_le_pow_right two_pos high
    rw [pow_succ] at more
    rw [Nat.mod_eq_of_lt (by omega), Nat.mod_eq_of_lt (by omega)]
    omega

/-- The array holds the weight spread sequence of each order at its start. -/
theorem terms_value {k t : ℕ} (small : k ≤ 16) (inside : t + 1 < 2 ^ k) : (WeightSpread.terms k)[t]? = some (value t) := by
  have length := WeightSpread.length_terms k
  exact @WeightSpread.terms_getElem? (fun i => rawScan i maxOrder (maxOrder - 1)) k (fun j below => value_top j (by omega))
    (fun j _ i positive below => value_again positive below) t (by omega)

theorem value_le {k t : ℕ} (small : k ≤ 16) (inside : t + 1 < 2 ^ k) : value t ≤ k :=
  (WeightSpread.terms_le (List.mem_of_getElem? (terms_value small inside))).2

theorem get_eq {k ptr : ℕ} (inside : ptr + 1 < 2 ^ k) : get ptr k = some (value ptr) := by
  have bound : ((ptr + 1 : ℕ) : ℤ) < ((2 ^ k : ℕ) : ℤ) := Int.ofNat_lt.mpr inside
  push_cast at bound
  exact if_neg (by omega)

theorem incPtr_eq {k ptr : ℕ} (inside : ptr + 1 < 2 ^ k) : incPtr ptr k = (ptr + 1) % (2 ^ k - 1) := by
  have power : ((2 ^ k : ℕ) : ℤ) = 2 ^ k := by push_cast; rfl
  unfold incPtr
  rw [← power]
  split_ifs with last
  · have whole : ptr + 1 = 2 ^ k - 1 := by omega
    rw [whole, Nat.mod_self]
  · rw [Nat.mod_eq_of_lt (by omega)]

end WSS

namespace WM

/-- Each queue is in the columns of the bits of its weight, once. The order is `k`. -/
structure Matrix (s : WM) (weight : ℕ → ℕ) (k : ℕ) : Prop where
  column : ∀ i q, (s.wmHead i).count q = ((weight q).testBit i).toNat
  row : ∀ q i, i ∈ s.pRowHead q ↔ (weight q).testBit i = true
  level : s.currMaxColumn = (k : ℤ) - 1
  top : ∀ i, k = i + 1 → s.wmHead i ≠ []
  above : ∀ i, k ≤ i → s.wmHead i = []
  flag : s.wmEmptyFlag = decide (k = 0)
  cursor : 0 < k → ∃ q i, s.pwmCurr = some ⟨q, i⟩ ∧ q ∈ s.wmHead i
  nowhere : k = 0 → s.pwmCurr = none

/-- The state between two calls. -/
structure Sound (s : WM) (weight : ℕ → ℕ) (k : ℕ) : Prop extends Matrix s weight k where
  fits : k ≤ s.maxColumn + 1
  small : s.maxColumn ≤ 15
  inside : 0 < k → s.ptr + 1 < 2 ^ k
  start : k = 0 → s.ptr = 0

section Columns

variable {s : WM} {weight : ℕ → ℕ} {k q i x y : ℕ} {l : List ℕ}

theorem insertBefore_perm (x y : ℕ) (l : List ℕ) : (insertBefore x y l).Perm (x :: l) := by
  induction l with
  | nil => exact List.Perm.refl _
  | cons z l ih =>
    unfold insertBefore
    split_ifs
    · exact List.Perm.refl _
    · exact (ih.cons z).trans (List.Perm.swap x z l)

theorem after_append (absent : y ∉ l) (r : List ℕ) : after y (l ++ y :: r) = r := by
  induction l with
  | nil => exact if_pos rfl
  | cons z l ih =>
    obtain ⟨other, absent⟩ := not_or.mp fun member => absent (List.mem_cons.mpr member)
    rw [List.cons_append, after, if_neg (Ne.symm other), ih absent]

/-- A member of a column without repetitions, and what comes before and after it. -/
theorem after_split (member : y ∈ l) (distinct : l.Nodup) : ∃ front, l = front ++ y :: after y l ∧ y ∉ front := by
  obtain ⟨front, r, rfl⟩ := List.append_of_mem member
  have absent : y ∉ front := fun before => (List.nodup_append.mp distinct).2.2 y before y List.mem_cons_self rfl
  exact ⟨front, by rw [after_append absent], absent⟩

theorem after_next {next : ℕ} {r : List ℕ} (member : y ∈ l) (distinct : l.Nodup) (follows : after y l = next :: r) :
    after next l = r ∧ next ∈ l := by
  obtain ⟨front, split, _⟩ := after_split member distinct
  rw [follows] at split
  have joined : l = (front ++ [y]) ++ next :: r := by rw [split, List.append_assoc, List.singleton_append]
  have absent : next ∉ front ++ [y] := fun before => by
    rw [joined] at distinct
    exact (List.nodup_append.mp distinct).2.2 next before next List.mem_cons_self rfl
  constructor
  · conv_lhs => rw [joined]
    exact after_append absent r
  · rw [joined]
    exact List.mem_append_right _ List.mem_cons_self

theorem Matrix.order (matrix : Matrix s weight k) : s.order = k := by
  unfold WM.order
  rw [matrix.level]
  omega

theorem Matrix.mem (matrix : Matrix s weight k) : q ∈ s.wmHead i ↔ (weight q).testBit i = true := by
  rw [← List.count_pos_iff, matrix.column]
  cases (weight q).testBit i <;> decide

theorem Matrix.nodup (matrix : Matrix s weight k) (i : ℕ) : (s.wmHead i).Nodup :=
  List.nodup_iff_count_le_one.mpr fun q => by
    rw [matrix.column]
    exact Bool.toNat_le _

/-- The weights are less than a full scan. -/
theorem Matrix.weight_lt (matrix : Matrix s weight k) (q : ℕ) : weight q < 2 ^ k :=
  Nat.lt_pow_two_of_testBit _ fun i above => by
    by_contra set
    have member := matrix.mem.mpr (Bool.eq_true_of_not_eq_false set)
    rw [matrix.above i above] at member
    exact absurd member List.not_mem_nil

end Columns

section Adding

variable {s : WM} {weight : ℕ → ℕ} {k q i : ℕ}

theorem addNode_eq (s : WM) (q i : ℕ) : ∃ column, column.Perm (q :: s.wmHead i) ∧ s.addNode q i = { s with
    pRowHead := Function.update s.pRowHead q (s.pRowHead q ++ [i]), wmHead := Function.update s.wmHead i column,
    currMaxColumn := if s.currMaxColumn < i then i else s.currMaxColumn, wmEmptyFlag := false,
    pwmCurr := if s.wmEmptyFlag = true ∧ s.pwmCurr = none then some ⟨q, i⟩ else s.pwmCurr } := by
  let column := s.pwmCurr.elim (s.wmHead i ++ [q]) fun curr =>
    if curr.weight = i then insertBefore q curr.queueid (s.wmHead i) else s.wmHead i ++ [q]
  have last : (s.wmHead i ++ [q]).Perm (q :: s.wmHead i) := List.perm_append_singleton q _
  refine ⟨column, ?_, ?_⟩
  · unfold column
    cases s.pwmCurr with
    | none => exact last
    | some curr =>
      dsimp only [Option.elim]
      split_ifs
      · exact insertBefore_perm q _ _
      · exact last
  · let grown : WM := { s with
      pRowHead := Function.update s.pRowHead q (s.pRowHead q ++ [i]), wmHead := Function.update s.wmHead i column,
      currMaxColumn := if s.currMaxColumn < i then i else s.currMaxColumn }
    have result : s.addNode q i = if s.wmEmptyFlag = true then
        { grown with wmEmptyFlag := false, pwmCurr := if s.pwmCurr = none then some ⟨q, i⟩ else s.pwmCurr } else grown := by
      unfold grown column addNode
      cases s.pwmCurr <;> rfl
    rw [result]
    cases flag : s.wmEmptyFlag with
    | true => simp [grown]
    | false => simp [grown, flag]

/-- One bit more. -/
theorem Matrix.addNode (matrix : Matrix s weight k) (unset : (weight q).testBit i = false) :
    Matrix (s.addNode q i) (Function.update weight q (weight q ||| 2 ^ i)) (max k (i + 1)) := by
  obtain ⟨column, perm, written⟩ := addNode_eq s q i
  rw [written]
  have bits : ∀ j, (weight q ||| 2 ^ i).testBit j = ((weight q).testBit j || decide (i = j)) := fun j => by
    rw [Nat.testBit_or, Nat.testBit_two_pow]
  have grown : ∀ j, s.wmHead j ≠ [] → Function.update s.wmHead i column j ≠ [] := fun j some => by
    by_cases own : j = i
    · subst own
      rw [Function.update_self]
      exact List.ne_nil_of_length_pos (by rw [perm.length_eq]; exact Nat.succ_pos _)
    · rwa [Function.update_of_ne own]
  have kept : ∀ j p, p ∈ s.wmHead j → p ∈ Function.update s.wmHead i column j := fun j p member => by
    by_cases own : j = i
    · subst own
      rw [Function.update_self]
      exact perm.mem_iff.mpr (List.mem_cons_of_mem q member)
    · rwa [Function.update_of_ne own]
  have new : q ∈ Function.update s.wmHead i column i := by
    rw [Function.update_self]
    exact perm.mem_iff.mpr List.mem_cons_self
  refine ⟨fun j p => ?_, fun p j => ?_, ?_, fun j last => ?_, fun j high => ?_, ?_, fun _ => ?_, fun none => by omega⟩
  all_goals dsimp only
  · by_cases own : j = i
    · subst own
      rw [Function.update_self, perm.count_eq, List.count_cons, matrix.column]
      by_cases same : p = q
      · subst same
        rw [Function.update_self, bits, unset]
        simp
      · rw [Function.update_of_ne same]
        simp [Ne.symm same]
    · rw [Function.update_of_ne own, matrix.column]
      by_cases same : p = q
      · subst same
        rw [Function.update_self, bits]
        simp [Ne.symm own]
      · rw [Function.update_of_ne same]
  · by_cases same : p = q
    · subst same
      rw [Function.update_self, Function.update_self, bits, List.mem_append, matrix.row, List.mem_singleton, Bool.or_eq_true,
        decide_eq_true_eq, @eq_comm _ i j]
    · rw [Function.update_of_ne same, Function.update_of_ne same, matrix.row]
  · rw [matrix.level]
    split_ifs <;> omega
  · by_cases own : j = i
    · subst own
      exact List.ne_nil_of_mem new
    · exact grown j (matrix.top j (by omega))
  · rw [Function.update_of_ne (by omega)]
    exact matrix.above j (by omega)
  · exact (decide_eq_false (by omega)).symm
  · rcases k.eq_zero_or_pos with none | positive
    · have nowhere := matrix.nowhere none
      have flag := matrix.flag
      rw [decide_eq_true none] at flag
      exact ⟨q, i, if_pos ⟨flag, nowhere⟩, new⟩
    · obtain ⟨p, j, curr, member⟩ := matrix.cursor positive
      refine ⟨p, j, ?_, kept j p member⟩
      rw [curr]
      exact if_neg fun both => absurd both.2 nofun

/-- The nodes for the bits below `n`. -/
theorem Matrix.addNodes {n : ℕ} (matrix : Matrix s weight k) (bits : ℕ) (unset : ∀ i < n, (weight q).testBit i = false) : ∃ k',
    Matrix (addNodes q bits n s) (Function.update weight q (weight q ||| bits % 2 ^ n)) k' ∧ k ≤ k' ∧ k' ≤ max k n := by
  induction n generalizing s weight k with
  | zero =>
    have same : Function.update weight q (weight q ||| bits % 2 ^ 0) = weight := by
      rw [pow_zero, Nat.mod_one, Nat.or_zero, Function.update_eq_self]
    rw [same]
    exact ⟨k, matrix, le_rfl, le_max_left k 0⟩
  | succ n ih =>
    unfold WM.addNodes
    by_cases set : bits.testBit n = true
    · have written := matrix.addNode (unset n (Nat.lt_succ_self n))
      have left : ∀ i < n, (Function.update weight q (weight q ||| 2 ^ n) q).testBit i = false := fun i below => by
        rw [Function.update_self, Nat.testBit_or, unset i (below.trans (Nat.lt_succ_self n)), Nat.testBit_two_pow_of_ne below.ne']
        rfl
      obtain ⟨k', final, low, high⟩ := ih written left
      rw [if_pos set]
      have joined : weight q ||| 2 ^ n ||| bits % 2 ^ n = weight q ||| bits % 2 ^ (n + 1) := by
        refine Nat.eq_of_testBit_eq fun i => ?_
        simp only [Nat.testBit_or, Nat.testBit_two_pow, Nat.testBit_mod_two_pow]
        rcases lt_trichotomy i n with below | same | above
        · simp [below, below.ne', below.trans (Nat.lt_succ_self n)]
        · subst same
          simp [set]
        · simp [above.ne, above.not_gt, show ¬ i < n + 1 by omega]
      rw [Function.update_self, Function.update_idem, joined] at final
      exact ⟨k', final, (le_max_left _ _).trans low, by omega⟩
    · have unset' : ∀ i < n, (weight q).testBit i = false := fun i below => unset i (below.trans (Nat.lt_succ_self n))
      obtain ⟨k', final, low, high⟩ := ih matrix unset'
      rw [if_neg set]
      have same : bits % 2 ^ n = bits % 2 ^ (n + 1) := by
        refine Nat.eq_of_testBit_eq fun i => ?_
        simp only [Nat.testBit_mod_two_pow]
        rcases lt_trichotomy i n with below | same | above
        · simp [below, below.trans (Nat.lt_succ_self n)]
        · subst same
          simp [Bool.eq_false_of_not_eq_true set]
        · simp [above.not_gt, show ¬ i < n + 1 by omega]
      rw [same] at final
      exact ⟨k', final, low, by omega⟩

theorem addNodes_kept (q bits n : ℕ) (s : WM) :
    (addNodes q bits n s).ptr = s.ptr ∧ (addNodes q bits n s).maxColumn = s.maxColumn := by
  induction n generalizing s with
  | zero => exact ⟨rfl, rfl⟩
  | succ n ih =>
    unfold addNodes
    split_ifs
    · obtain ⟨_, _, written⟩ := addNode_eq s q n
      have kept := ih (s.addNode q n)
      rw [written] at kept ⊢
      exact kept
    · exact ih s

/-- A queue that was not in the matrix gets its weight. -/
theorem Sound.add {w : ℕ} (sound : Sound s weight k) (absent : weight q = 0) (positive : 0 < w) (bound : w < 2 ^ (s.maxColumn + 1)) :
    ∃ t k', s.addToWM q w = some t ∧ Sound t (Function.update weight q w) k' := by
  have unset : ∀ i < s.maxColumn + 1, (weight q).testBit i = false := fun i _ => by rw [absent, Nat.zero_testBit]
  obtain ⟨k', matrix, low, high⟩ := sound.toMatrix.addNodes w unset
  rw [absent, Nat.zero_or, Nat.mod_eq_of_lt bound] at matrix
  obtain ⟨ptr, maxColumn⟩ := addNodes_kept q w (s.maxColumn + 1) s
  have fits := sound.fits
  let u := addNodes q w (s.maxColumn + 1) s
  let p := if s.currMaxColumn < u.currMaxColumn ∧ s.currMaxColumn ≥ 0 then
    (u.ptr + 1) * 2 ^ (u.currMaxColumn - s.currMaxColumn).toNat - 1 else u.ptr
  have result : s.addToWM q w = some { u with ptr := p, flwcnt := u.flwcnt + 1 } := by
    have moved : (if s.currMaxColumn < u.currMaxColumn ∧ s.currMaxColumn ≥ 0 then
        { u with ptr := (u.ptr + 1) * 2 ^ (u.currMaxColumn - s.currMaxColumn).toNat - 1 } else u) = { u with ptr := p } := by
      unfold p
      split_ifs <;> rfl
    unfold addToWM
    rw [if_neg positive.ne', if_neg (by omega)]
    exact congrArg (fun t : WM => some { t with flwcnt := t.flwcnt + 1 }) moved
  have old := sound.level
  have new : u.currMaxColumn = (k' : ℤ) - 1 := matrix.level
  have same : u.ptr = s.ptr := ptr
  refine ⟨_, k', result, ⟨matrix.column, matrix.row, matrix.level, matrix.top, matrix.above, matrix.flag, matrix.cursor,
    matrix.nowhere⟩, ?_, ?_, fun some => ?_, fun none => ?_⟩
  · change k' ≤ u.maxColumn + 1
    rw [show u.maxColumn = s.maxColumn from maxColumn]
    omega
  · exact maxColumn.trans_le sound.small
  · change p + 1 < 2 ^ k'
    by_cases grows : s.currMaxColumn < u.currMaxColumn ∧ s.currMaxColumn ≥ 0
    · have before := sound.inside (by omega)
      have steps : (u.currMaxColumn - s.currMaxColumn).toNat = k' - k := by omega
      have product : (s.ptr + 1) * 2 ^ (k' - k) < 2 ^ k' := by
        calc (s.ptr + 1) * 2 ^ (k' - k) < 2 ^ k * 2 ^ (k' - k) := Nat.mul_lt_mul_of_pos_right before (Nat.two_pow_pos _)
          _ = 2 ^ k' := by rw [← pow_add, Nat.add_sub_cancel' low]
      have positive : 0 < (s.ptr + 1) * 2 ^ (k' - k) := Nat.mul_pos (Nat.succ_pos _) (Nat.two_pow_pos _)
      have value : p = (s.ptr + 1) * 2 ^ (k' - k) - 1 := by rw [← steps, ← same]; exact if_pos grows
      omega
    · have value : p = s.ptr := (if_neg grows).trans same
      rcases k.eq_zero_or_pos with none | several
      · have two : 2 ^ 1 ≤ 2 ^ k' := Nat.pow_le_pow_right two_pos some
        rw [value, sound.start none]
        omega
      · have equal : k' = k := by omega
        rw [value, equal]
        exact sound.inside several
  · have grows : ¬ (s.currMaxColumn < u.currMaxColumn ∧ s.currMaxColumn ≥ 0) := by omega
    change p = 0
    rw [show p = s.ptr from (if_neg grows).trans same]
    exact sound.start (by omega)

end Adding

end WM

end Ns2
