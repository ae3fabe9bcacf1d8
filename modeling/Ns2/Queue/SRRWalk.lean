import Ns2.Queue.SRRMatrix

namespace Ns2.WM

open CyclicScan (turn entry)

/-- The column that term `t` names. -/
def block (s : WM) (t : ℕ) : List ℕ := s.wmHead (s.order - WSS.value t)

/-- The number of terms of the sequence of the current order. -/
def terms (s : WM) : ℕ := 2 ^ s.order - 1

/-- The queues that one full scan from `ptr` on meets. -/
def cycle (s : WM) : List ℕ := turn s.block s.terms s.ptr

/-- The queues behind the cursor in its column. -/
def rest (s : WM) : List ℕ :=
  match s.pwmCurr with
  | none => []
  | some curr => after curr.queueid (s.wmHead curr.weight)

/-- The cursor is in the column that the last term named. -/
def Settled (s : WM) : Prop :=
  s.pwmCurr.map WmNode.weight = some (s.order - WSS.value ((s.ptr + (s.terms - 1)) % s.terms))

instance (s : WM) : Decidable s.Settled := inferInstanceAs (Decidable (_ = _))

section Seeking

variable {s : WM} {weight : ℕ → ℕ} {k q n : ℕ}

/-- The search ends at the first term that names a column with queues. -/
theorem seek_spec (level : s.order = k) (small : k ≤ 16) (inside : s.ptr + 1 < 2 ^ k)
    (found : ∃ j < n, s.block ((s.ptr + j) % s.terms) ≠ []) : ∃ x r i p,
      seek n s = some { s with ptr := p, pwmCurr := some ⟨x, i⟩ } ∧ s.wmHead i = x :: r ∧ p + 1 < 2 ^ k ∧
      i = s.order - WSS.value ((p + (s.terms - 1)) % s.terms) ∧ ∀ e, entry [] s.cycle e = entry (x :: r) (turn s.block s.terms p) e := by
  induction n generalizing s with
  | zero =>
    obtain ⟨j, below, _⟩ := found
    exact absurd below (Nat.not_lt_zero j)
  | succ n ih =>
    have count : s.terms = 2 ^ k - 1 := by rw [terms, level]
    have within : s.ptr < s.terms := by omega
    have next : WSS.incPtr s.ptr s.order = (s.ptr + 1) % s.terms := by rw [level, WSS.incPtr_eq inside, count]
    have below : (s.ptr + 1) % s.terms < s.terms := Nat.mod_lt _ (by omega)
    have start : seek (n + 1) s = (s.wmHead (s.order - WSS.value s.ptr)).head?.elim
        (seek n { s with ptr := (s.ptr + 1) % s.terms }) fun first =>
          some { s with ptr := (s.ptr + 1) % s.terms, pwmCurr := some ⟨first, s.order - WSS.value s.ptr⟩ } := by
      have term : WSS.get s.ptr s.order = some (WSS.value s.ptr) := by rw [level, WSS.get_eq inside]
      have range : ¬ WSS.value s.ptr > s.order := by
        rw [level]
        exact not_lt.mpr (WSS.value_le small inside)
      rw [seek, term]
      simp only [Option.bind_eq_bind, Option.bind_some, next]
      refine (if_neg range).trans ?_
      split
      · rename_i first rest column
        rw [show s.wmHead (s.order - WSS.value s.ptr) = _ from column]
        rfl
      · rename_i column
        rw [show s.wmHead (s.order - WSS.value s.ptr) = _ from column]
        rfl
    have walk := CyclicScan.entry_turn s.block within
    rw [start]
    cases column : s.wmHead (s.order - WSS.value s.ptr) with
    | cons x r =>
      have back : ((s.ptr + 1) % s.terms + (s.terms - 1)) % s.terms = s.ptr := by
        rw [Nat.mod_add_mod, add_assoc, Nat.add_sub_cancel' (by omega), Nat.add_mod_right, Nat.mod_eq_of_lt within]
      refine ⟨x, r, s.order - WSS.value s.ptr, (s.ptr + 1) % s.terms, rfl, column, by omega, by rw [back], fun e => ?_⟩
      rw [cycle, walk, block, column]
    | nil =>
      have found' : ∃ j < n, s.block (((s.ptr + 1) % s.terms + j) % s.terms) ≠ [] := by
        obtain ⟨j, bound, some⟩ := found
        cases j with
        | zero =>
          rw [add_zero, Nat.mod_eq_of_lt within] at some
          exact absurd column some
        | succ j => exact ⟨j, Nat.lt_of_succ_lt_succ bound, by rwa [Nat.mod_add_mod, add_assoc, add_comm 1 j]⟩
      obtain ⟨x, r, i, p, found, column', inside', settled, same⟩ := ih (s := { s with ptr := (s.ptr + 1) % s.terms }) level
        (show (s.ptr + 1) % s.terms + 1 < 2 ^ k by omega) found'
      refine ⟨x, r, i, p, found, column', inside', settled, fun e => ?_⟩
      have passed : entry [] s.cycle e = entry [] (turn s.block s.terms ((s.ptr + 1) % s.terms)) e := by
        rw [cycle, walk, block, column]
      exact passed.trans (same e)

/-- The highest column comes up in every full scan. -/
theorem found_top {i : ℕ} (level : s.order = i + 1) (top : s.wmHead i ≠ []) (inside : s.ptr + 1 < 2 ^ (i + 1)) :
    ∃ j < 2 ^ s.order, s.block ((s.ptr + j) % s.terms) ≠ [] := by
  have count : s.terms = 2 ^ (i + 1) - 1 := by rw [terms, level]
  refine ⟨s.terms - s.ptr, by rw [level]; omega, ?_⟩
  rw [Nat.add_sub_cancel' (by omega), Nat.mod_self]
  have first : WSS.value 0 = 1 := by decide
  rw [block, first, level]
  exact top

/-- What a call for the next node does: the first of the queues to come is
returned, and the others are to come. -/
theorem Sound.next (sound : Sound s weight k) (positive : 0 < k) {bytecnt : ℤ} (bytes : bytecnt ≠ 0) : ∃ t x i,
    s.getNextNode bytecnt = some (t, some ⟨x, i⟩) ∧ Sound t weight k ∧ t.wmHead = s.wmHead ∧ x ∈ s.wmHead i ∧
      ∀ e, entry s.rest s.cycle e = entry (x :: t.rest) t.cycle e := by
  obtain ⟨q, i, curr, member⟩ := sound.cursor positive
  have order := sound.order
  have inside := sound.inside positive
  have behind : s.rest = after q (s.wmHead i) := by rw [rest, curr]
  unfold getNextNode
  rw [if_neg bytes]
  simp only [curr, Option.bind_eq_bind, Option.bind_some]
  cases follows : after q (s.wmHead i) with
  | cons x r =>
    obtain ⟨left, present⟩ := after_next member (sound.nodup i) follows
    refine ⟨_, x, i, rfl, ⟨⟨sound.column, sound.row, sound.level, sound.top, sound.above, sound.flag, fun _ => ⟨x, i, rfl, present⟩,
      fun none => absurd none positive.ne'⟩, sound.fits, sound.small, sound.inside, sound.start⟩, rfl, present, fun e => ?_⟩
    rw [behind, follows, ← left]
    rfl
  | nil =>
    have level : s.currMaxColumn ≠ -1 := by rw [sound.level]; omega
    obtain ⟨last, rfl⟩ : ∃ last, k = last + 1 := ⟨k - 1, by omega⟩
    have found := found_top order (sound.top last rfl) inside
    have small : last + 1 ≤ 16 := by
      have fits := sound.fits
      have bound := sound.small
      omega
    obtain ⟨x, r, i', p, sought, column, inside', _, same⟩ := seek_spec order small inside found
    have present : x ∈ s.wmHead i' := by rw [column]; exact List.mem_cons_self
    simp only [if_neg level, sought]
    refine ⟨_, x, i', rfl, ⟨⟨sound.column, sound.row, sound.level, sound.top, sound.above, sound.flag, fun _ => ⟨x, i', rfl, present⟩,
      fun none => absurd none positive.ne'⟩, sound.fits, sound.small, fun _ => inside', fun none => absurd none positive.ne'⟩, rfl,
      present, fun e => ?_⟩
    have left : after x (s.wmHead i') = r := by rw [column]; exact if_pos rfl
    rw [behind, follows, same, ← left]
    rfl

end Seeking

section Deleting

variable {s : WM} {weight : ℕ → ℕ} {k q n i : ℕ}

theorem erases_eq (row : List ℕ) (columns : ℕ → List ℕ) (distinct : ∀ i, (columns i).Nodup) (i : ℕ) :
    row.foldl (fun columns i => Function.update columns i ((columns i).erase q)) columns i =
      if i ∈ row then (columns i).erase q else columns i := by
  induction row generalizing columns with
  | nil => rfl
  | cons j row ih =>
    have distinct' : ∀ i, (Function.update columns j ((columns j).erase q) i).Nodup := fun i => by
      by_cases own : i = j
      · subst own
        rw [Function.update_self]
        exact (distinct i).erase q
      · rw [Function.update_of_ne own]
        exact distinct i
    rw [List.foldl_cons, ih _ distinct']
    by_cases own : i = j
    · subst own
      have gone : q ∉ (columns i).erase q := (distinct i).not_mem_erase
      rw [Function.update_self, List.erase_of_not_mem gone, ite_self, if_pos List.mem_cons_self]
    · rw [Function.update_of_ne own]
      simp [own]

theorem highest_none {s : WM} (none : s.highest n = none) : ∀ i < n, s.wmHead i = [] := by
  induction n with
  | zero => exact fun i below => absurd below (Nat.not_lt_zero i)
  | succ n ih =>
    unfold highest at none
    split_ifs at none with empty
    intro i below
    rcases Nat.lt_succ_iff_lt_or_eq.mp below with lower | rfl
    · exact ih none i lower
    · exact not_not.mp empty

theorem highest_some {s : WM} (found : s.highest n = some i) :
    i < n ∧ s.wmHead i ≠ [] ∧ ∀ j, i < j → j < n → s.wmHead j = [] := by
  induction n with
  | zero => cases found
  | succ n ih =>
    unfold highest at found
    split_ifs at found with some
    · cases Option.some.inj found
      exact ⟨Nat.lt_succ_self _, some, fun j above below => by omega⟩
    · obtain ⟨below, top, between⟩ := ih found
      refine ⟨below.trans (Nat.lt_succ_self n), top, fun j above inside => ?_⟩
      rcases Nat.lt_succ_iff_lt_or_eq.mp inside with lower | rfl
      · exact between j above lower
      · exact not_not.mp some

theorem shrink_lt {ptr mul : ℕ} (below : ptr + 1 < 2 ^ (i + 1) * mul) (positive : 0 < mul) : shrink ptr i mul + 1 < 2 ^ (i + 1) := by
  have two : 2 ^ 1 ≤ 2 ^ (i + 1) := Nat.pow_le_pow_right two_pos (by omega)
  have quotient : (ptr + 1) / mul < 2 ^ (i + 1) := (Nat.div_lt_iff_lt_mul positive).mpr below
  unfold shrink
  dsimp only
  split_ifs with part last
  · omega
  · omega
  · have whole : mul ≤ ptr + 1 := Nat.le_of_dvd (Nat.succ_pos ptr) (Nat.dvd_of_mod_eq_zero (not_not.mp part))
    have least := Nat.div_pos whole positive
    omega

/-- A queue leaves the matrix. -/
theorem Sound.del (sound : Sound s weight k) (present : weight q ≠ 0) :
    ∃ t k', s.delFromWM q = some t ∧ Sound t (Function.update weight q 0) k' := by
  have positive : 0 < k := Nat.pos_of_ne_zero fun none => by
    have bound := sound.weight_lt q
    rw [none, pow_zero] at bound
    omega
  obtain ⟨p, c, curr, member⟩ := sound.cursor positive
  let columns := (s.pRowHead q).foldl (fun columns i => Function.update columns i ((columns i).erase q)) s.wmHead
  have erased : ∀ i, columns i = (s.wmHead i).erase q := fun i => by
    rw [show columns i = _ from erases_eq _ _ sound.nodup i]
    split_ifs with inRow
    · rfl
    · rw [List.erase_of_not_mem fun inside => inRow ((sound.row q i).mpr (sound.mem.mp inside))]
  have column : ∀ i x, (columns i).count x = ((Function.update weight q 0 x).testBit i).toNat := fun i x => by
    rw [erased]
    by_cases own : x = q
    · subst own
      rw [Function.update_self, Nat.zero_testBit, List.count_eq_zero_of_not_mem (sound.nodup i).not_mem_erase]
      rfl
    · rw [Function.update_of_ne own, List.count_erase_of_ne own, sound.column]
  have row : ∀ x i, i ∈ Function.update s.pRowHead q [] x ↔ (Function.update weight q 0 x).testBit i = true := fun x i => by
    by_cases own : x = q
    · subst own
      simp
    · rw [Function.update_of_ne own, Function.update_of_ne own, sound.row]
  let next : Option WmNode := if p = q then (after p (s.wmHead c)).head?.map fun x => ⟨x, c⟩ else some ⟨p, c⟩
  have live : ∀ node, next = some node → node.queueid ∈ columns node.weight := fun node same => by
    rw [erased]
    unfold next at same
    split_ifs at same with own
    · obtain ⟨x, follows, rfl⟩ := Option.map_eq_some_iff.mp same
      obtain ⟨r, behind⟩ : ∃ r, after p (s.wmHead c) = x :: r := List.head?_eq_some_iff.mp follows
      have other : x ≠ q := fun equal => by
        obtain ⟨front, split, _⟩ := after_split member (sound.nodup c)
        have distinct := sound.nodup c
        rw [split, behind, equal, own] at distinct
        exact (List.nodup_cons.mp (List.nodup_append.mp distinct).2.1).1 List.mem_cons_self
      exact (List.mem_erase_of_ne other).mpr (after_next member (sound.nodup c) behind).2
    · cases Option.some.inj same
      exact (List.mem_erase_of_ne own).mpr member
  let u : WM := { s with
    pwmCurr := next, wmHead := columns, pRowHead := Function.update s.pRowHead q [], flwcnt := s.flwcnt - 1 }
  have start : s.delFromWM q = (u.highest s.order).elim
      (some { u with wmEmptyFlag := true, currMaxColumn := -1, pwmCurr := none, lastQueueid := -1, ptr := 0 }) fun i =>
        let ptr := if (i : ℤ) < s.currMaxColumn then shrink s.ptr i (2 ^ (s.currMaxColumn - i).toNat) else s.ptr
        let v : WM := { u with currMaxColumn := i, ptr := ptr }
        if next = none then seek (2 ^ v.order) v else some v := by
    unfold delFromWM
    simp only [curr, Option.bind_eq_bind, Option.bind_some]
    split
    · rename_i none
      rw [show u.highest s.order = _ from none]
      rfl
    · rename_i i some
      rw [show u.highest s.order = _ from some]
      rfl
  have high : ∀ i, k ≤ i → columns i = [] := fun i above => by
    rw [erased, sound.above i above]
    rfl
  rw [start, sound.order]
  cases top : u.highest k with
  | none =>
    have empty : ∀ i, columns i = [] := fun i => (lt_or_ge i k).elim (highest_none top i) (high i)
    exact ⟨_, 0, rfl, ⟨column, row, rfl, fun i last => absurd last (Nat.succ_ne_zero i).symm, fun i _ => empty i, rfl, fun some => absurd some (lt_irrefl 0),
      fun _ => rfl⟩, Nat.zero_le _, sound.small, fun some => absurd some (lt_irrefl 0), fun _ => rfl⟩
  | some i =>
    obtain ⟨below, filled, between⟩ := highest_some top
    have level := sound.level
    have fits := sound.fits
    have small := sound.small
    let ptr := if (i : ℤ) < s.currMaxColumn then shrink s.ptr i (2 ^ (s.currMaxColumn - i).toNat) else s.ptr
    let v : WM := { u with currMaxColumn := i, ptr := ptr }
    have inside : ptr + 1 < 2 ^ (i + 1) := by
      have before := sound.inside positive
      by_cases shrinks : (i : ℤ) < s.currMaxColumn
      · have steps : i + 1 + (s.currMaxColumn - i).toNat = k := by omega
        rw [show ptr = _ from if_pos shrinks]
        refine shrink_lt ?_ (Nat.two_pow_pos _)
        rwa [← pow_add, steps]
      · rw [show ptr = _ from if_neg shrinks, show i + 1 = k by omega]
        exact before
    have level' : v.order = i + 1 := by
      unfold WM.order
      exact Int.toNat_natCast (i + 1)
    have above : ∀ j, i + 1 ≤ j → columns j = [] := fun j more => (lt_or_ge j k).elim (between j more) (high j)
    have flag : s.wmEmptyFlag = decide (i + 1 = 0) := by
      rw [sound.flag, decide_eq_false positive.ne']
      rfl
    have kept : ∀ t : WM, t.wmHead = columns → t.pRowHead = v.pRowHead → t.currMaxColumn = i → t.wmEmptyFlag = s.wmEmptyFlag →
        t.maxColumn = s.maxColumn → t.ptr + 1 < 2 ^ (i + 1) → (∃ x j, t.pwmCurr = some ⟨x, j⟩ ∧ x ∈ columns j) →
        Sound t (Function.update weight q 0) (i + 1) := by
      intro t heads rows top' flag' most ptr' cursor
      refine ⟨⟨?_, ?_, ?_, ?_, ?_, ?_, ?_, fun none => absurd none (Nat.succ_ne_zero i)⟩, ?_, ?_, ?_, fun none => absurd none (Nat.succ_ne_zero i)⟩
      · rw [heads]
        exact column
      · rw [rows]
        exact row
      · rw [top']
        omega
      · rintro j last
        cases Nat.succ.inj last
        rw [heads]
        exact filled
      · rw [heads]
        exact above
      · rw [flag', flag]
      · rw [heads]
        exact fun _ => cursor
      · rw [most]
        omega
      · rw [most]
        exact small
      · exact fun _ => ptr'
    by_cases lost : next = none
    · have found := found_top (s := v) level' filled inside
      obtain ⟨x, r, j, p', sought, col, inside', _, _⟩ := seek_spec level' (by omega) inside found
      exact ⟨_, i + 1, (if_pos lost).trans sought, kept _ rfl rfl rfl rfl rfl inside' ⟨x, j, rfl, by
        rw [show columns j = x :: r from col]
        exact List.mem_cons_self⟩⟩
    · obtain ⟨⟨x, j⟩, same⟩ := Option.ne_none_iff_exists'.mp lost
      exact ⟨v, i + 1, if_neg lost, kept v rfl rfl rfl rfl rfl inside ⟨x, j, same, live _ same⟩⟩

end Deleting

end Ns2.WM
