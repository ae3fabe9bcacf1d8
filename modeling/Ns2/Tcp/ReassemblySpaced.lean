import Ns2.Tcp.ReassemblyRun

namespace Ns2.ReassemblyQueue

open Intervals (Spaced spaced_middle spaced_cons spaced_map)

/-- The blocks are in order and apart. A block may be empty, as one for a `FIN` without data is. -/
abbrev InOrder (l : List SegInfo) : Prop := Spaced SegInfo.startseq SegInfo.endseq l

section Ends

variable {s next : ReassemblyQueue} {flags : TcpFlag} {before after low high : List SegInfo} {n x : SegInfo} {i j : ℕ} {start fin : ℤ}

theorem Spaced.above_head {q : SegInfo} (spaced : InOrder (q :: high)) (beyond : fin < q.startseq) : ∀ b ∈ q :: high, fin < b.startseq := by
  have later := (List.pairwise_cons.mp spaced.lo_lt).1
  exact List.forall_mem_cons.mpr ⟨beyond, fun b member => beyond.trans (later b member)⟩

theorem Spaced.below_last {p : SegInfo} (spaced : InOrder (low ++ [p])) (under : p.endseq < start) :
    ∀ b ∈ low ++ [p], b.endseq < start := by
  have earlier := (List.pairwise_append.mp spaced.hi_lt).2.2
  intro b member
  rcases List.mem_append.mp member with old | same
  · exact (earlier b old p (List.mem_singleton_self p)).trans under
  · rwa [List.mem_singleton.mp same]

theorem Spaced.under_last {p : SegInfo} (spaced : InOrder (low ++ [p])) : ∀ b ∈ low ++ [p], b.endseq ≤ p.endseq := by
  have earlier := (List.pairwise_append.mp spaced.hi_lt).2.2
  intro b member
  rcases List.mem_append.mp member with old | same
  · exact (earlier b old p (List.mem_singleton_self p)).le
  · rw [List.mem_singleton.mp same]

/-- The new block joins those that it adjoins. -/
theorem coalesce_spaced (parts : s.fifo = before ++ n :: after) (proper : n.startseq ≤ n.endseq) (first : InOrder before)
    (last : InOrder after) (below : ∀ b ∈ before, b.endseq ≤ n.startseq) (above : ∀ b ∈ after, n.endseq ≤ b.startseq)
    (taken : s.coalesce before n after = some (next, flags)) : InOrder next.fifo := by
  unfold coalesce at taken
  split at taken
  · rename_i p q rest atEnd
    obtain ⟨low, rfl⟩ := List.getLast?_eq_some_iff.mp atEnd
    obtain ⟨lower, _, properP, underP, _⟩ := spaced_middle.mp first
    obtain ⟨higher, properQ, beyondQ⟩ := spaced_cons.mp last
    have touchP := below p (by simp)
    have touchQ := above q (by simp)
    rw [List.dropLast_concat] at taken
    split_ifs at taken with both left right
    · cases taken
      refine spaced_middle.mpr ⟨lower, higher, ?_, underP, beyondQ⟩
      simp only
      omega
    · cases taken
      refine spaced_middle.mpr ⟨lower, last, ?_, underP, Spaced.above_head last ?_⟩
      · simp only
        omega
      · simp only
        omega
    · cases taken
      refine spaced_middle.mpr ⟨first, higher, ?_, Spaced.below_last first ?_, beyondQ⟩
      · simp only
        omega
      · simp only
        omega
    · cases taken
      refine parts ▸ spaced_middle.mpr ⟨first, last, proper, Spaced.below_last first (by omega), Spaced.above_head last (by omega)⟩
  · rename_i p atEnd
    obtain ⟨low, rfl⟩ := List.getLast?_eq_some_iff.mp atEnd
    obtain ⟨lower, _, properP, underP, _⟩ := spaced_middle.mp first
    have touchP := below p (by simp)
    rw [List.dropLast_concat] at taken
    split_ifs at taken with left
    · cases taken
      refine spaced_middle.mpr ⟨lower, last, ?_, underP, fun b member => absurd member List.not_mem_nil⟩
      simp only
      omega
    · cases taken
      refine parts ▸ spaced_middle.mpr ⟨first, last, proper, Spaced.below_last first (by omega), fun b member => absurd member List.not_mem_nil⟩
  · rename_i q rest none
    obtain rfl := List.getLast?_eq_none_iff.mp none
    obtain ⟨higher, properQ, beyondQ⟩ := spaced_cons.mp last
    split_ifs at taken with right
    cases taken
    refine spaced_middle.mpr ⟨first, higher, ?_, fun b member => absurd member List.not_mem_nil, beyondQ⟩
    simp only
    omega
  · cases taken

theorem endfast_spaced {tiflags : TcpFlag} {rqflags : BitVec 32} {initcnt : ℤ} {needmerge : Bool} (proper : start ≤ fin)
    (first : InOrder (s.fifo.take i)) (last : InOrder (s.fifo.drop j)) (below : ∀ b ∈ s.fifo.take i, b.endseq ≤ start)
    (above : ∀ b ∈ s.fifo.drop j, fin ≤ b.startseq)
    (apart : needmerge = false → (∀ b ∈ s.fifo.take i, b.endseq < start) ∧ ∀ b ∈ s.fifo.drop j, fin < b.startseq)
    (taken : s.endfast i j start fin tiflags rqflags initcnt needmerge = some (next, flags)) : InOrder next.fifo := by
  unfold endfast at taken
  cases needmerge with
  | true =>
    simp only [if_true] at taken
    exact coalesce_spaced rfl proper first last below above taken
  | false =>
    obtain ⟨under, beyond⟩ := apart rfl
    cases taken
    exact spaced_middle.mpr ⟨first, last, proper, under, beyond⟩

/-- A block may be made longer where it has no neighbour. -/
theorem set_spaced {l : List SegInfo} {k : ℕ} {y : SegInfo} (spaced : InOrder l) (place : l[k]? = some x) (proper : y.startseq ≤ y.endseq)
    (left : k = 0 ∨ y.startseq = x.startseq) (right : k + 1 = l.length ∨ y.endseq = x.endseq) : InOrder (l.set k y) := by
  obtain ⟨inside, rfl⟩ := List.getElem?_eq_some_iff.mp place
  have whole : l = l.take k ++ l[k] :: l.drop (k + 1) := by rw [List.cons_getElem_drop_succ, List.take_append_drop]
  rw [whole] at spaced
  obtain ⟨first, last, _, under, beyond⟩ := spaced_middle.mp spaced
  rw [List.set_eq_take_append_cons_drop, if_pos inside]
  refine spaced_middle.mpr ⟨first, last, proper, ?_, ?_⟩
  · rcases left with start | same
    · rw [start, List.take_zero]
      simp
    · rwa [same]
  · rcases right with fin | same
    · rw [fin, List.drop_length]
      simp
    · rwa [same]

theorem take_succ_under {l : List SegInfo} {k : ℕ} (spaced : InOrder l) (place : l[k]? = some x) : ∀ b ∈ l.take (k + 1), b.endseq ≤ x.endseq := by
  have last : l.take (k + 1) = l.take k ++ [x] := by rw [List.take_add_one, place, Option.toList_some]
  have cut := spaced.sublist (List.take_sublist (k + 1) l)
  rw [last] at cut ⊢
  exact Spaced.under_last cut

theorem drop_above {l : List SegInfo} {k : ℕ} (spaced : InOrder l) (place : l[k]? = some x) : ∀ b ∈ l.drop k, x.startseq ≤ b.startseq := by
  obtain ⟨inside, rfl⟩ := List.getElem?_eq_some_iff.mp place
  have cut := spaced.sublist (List.drop_sublist k l)
  rw [← List.cons_getElem_drop_succ (h := inside)] at cut ⊢
  have later := (List.pairwise_cons.mp cut.lo_lt).1
  exact List.forall_mem_cons.mpr ⟨le_rfl, fun b member => (later b member).le⟩

/-- `[start, fin)` may come in between the first `i` blocks of the list and those from place `j` on. -/
structure Gap (l : List SegInfo) (i j : ℕ) (start fin : ℤ) : Prop where
  spaced : InOrder l
  below : ∀ b ∈ l.take i, b.endseq ≤ start
  above : ∀ b ∈ l.drop j, fin ≤ b.startseq

variable {l : List SegInfo} {p q y : SegInfo}

/-- After the left-side merge the gap starts where the merged block ends. -/
theorem Gap.left (gap : Gap l i j start fin) (proper : start ≤ fin) (place : l[i]? = some p) (some : 0 < j)
    (merges : i = 0 ∨ p.startseq < start) (lo : y.startseq = if start < p.startseq then start else p.startseq)
    (hi : y.endseq = p.endseq) : Gap (l.set i y) (i + 1) j p.endseq fin := by
  obtain ⟨inside, same⟩ := List.getElem?_eq_some_iff.mp place
  have properP := gap.spaced.proper p (List.mem_of_getElem? place)
  have properY : y.startseq ≤ y.endseq := by
    rw [lo, hi]
    split_ifs <;> omega
  have kept : i = 0 ∨ y.startseq = p.startseq := merges.imp_right fun early => by rw [lo, if_neg (by omega)]
  have spaced := set_spaced gap.spaced place properY kept (Or.inr hi)
  have before : i < j := by
    by_contra late
    have member : p ∈ l.drop j := by
      rw [← same]
      exact List.mem_drop_iff_getElem.mpr ⟨i - j, by omega, by simp [show j + (i - j) = i by omega]⟩
    have beyond := gap.above p member
    omega
  refine ⟨spaced, ?_, ?_⟩
  · rw [← hi]
    exact take_succ_under spaced (by rw [List.getElem?_set_self inside])
  · rw [List.drop_set_of_lt before]
    exact gap.above

theorem Gap.right_spaced (gap : Gap l i j start fin) (place : l[j - 1]? = some q) (some : 0 < j)
    (merges : j = l.length ∨ q.endseq > fin) (lo : y.startseq = q.startseq)
    (hi : y.endseq = if fin > q.endseq then fin else q.endseq) : InOrder (l.set (j - 1) y) := by
  have properQ := gap.spaced.proper q (List.mem_of_getElem? place)
  refine set_spaced gap.spaced place ?_ (Or.inr lo) ?_
  · rw [lo, hi]
    split_ifs <;> omega
  · rcases merges with last | beyond
    · exact Or.inl (by omega)
    · exact Or.inr (by rw [hi, if_neg (by omega)])

/-- After the right-side merge the gap ends where the merged block starts. -/
theorem Gap.right (gap : Gap l i j start fin) (place : l[j - 1]? = some q) (some : 0 < j)
    (merges : j = l.length ∨ q.endseq > fin) (lo : y.startseq = q.startseq)
    (hi : y.endseq = if fin > q.endseq then fin else q.endseq) (open_ : start < q.startseq) :
    Gap (l.set (j - 1) y) i (j - 1) start q.startseq := by
  obtain ⟨inside, same⟩ := List.getElem?_eq_some_iff.mp place
  have properQ := gap.spaced.proper q (List.mem_of_getElem? place)
  have spaced := gap.right_spaced place some merges lo hi
  have before : i ≤ j - 1 := by
    by_contra late
    have member : q ∈ l.take i := by
      rw [← same]
      exact List.mem_take_iff_getElem.mpr ⟨j - 1, by omega, rfl⟩
    have under := gap.below q member
    omega
  refine ⟨spaced, ?_, ?_⟩
  · rw [List.take_set_of_le before]
    exact gap.below
  · rw [← lo]
    exact drop_above spaced (by rw [List.getElem?_set_self inside])

/-- Where neither side is merged, the gap is between two blocks, and `fits` says whether it leaves room there. -/
theorem Gap.apart (gap : Gap s.fifo i j start fin) (outside : ∀ b ∈ (s.fifo.take j).drop i, ¬Inside start fin b) (nonempty : start < fin)
    (placeP : s.fifo[i]? = some p) (placeQ : s.fifo[j - 1]? = some q) (inner : 0 < i) (some : 0 < j) (within : j < s.fifo.length)
    (left : start ≤ p.startseq) (right : q.endseq ≤ fin) (fits : s.fits i j start fin = false) :
    (∀ b ∈ s.fifo.take i, b.endseq < start) ∧ ∀ b ∈ s.fifo.drop j, fin < b.startseq := by
  obtain ⟨inside, sameP⟩ := List.getElem?_eq_some_iff.mp placeP
  obtain ⟨insideQ, sameQ⟩ := List.getElem?_eq_some_iff.mp placeQ
  have properP := gap.spaced.proper p (List.mem_of_getElem? placeP)
  have here : i = j := by
    rcases Nat.lt_trichotomy i j with early | same | late
    · have member : p ∈ (s.fifo.take j).drop i := by
        rw [← sameP]
        exact List.mem_drop_iff_getElem.mpr ⟨0, by simp; omega, by simp⟩
      have order : p.endseq ≤ q.endseq := by
        refine take_succ_under gap.spaced placeQ p ?_
        rw [← sameP]
        exact List.mem_take_iff_getElem.mpr ⟨i, by omega, rfl⟩
      exact absurd ⟨left, order.trans right⟩ (outside p member)
    · exact same
    · have under := gap.below s.fifo[j] (List.mem_take_iff_getElem.mpr ⟨j, by omega, rfl⟩)
      have beyond := gap.above s.fifo[j] (List.mem_drop_iff_getElem.mpr ⟨0, by omega, by simp⟩)
      have properJ := gap.spaced.proper s.fifo[j] (List.getElem_mem within)
      omega
  subst here
  have placeBefore : s.fifo[i - 1]? = Option.some q := placeQ
  have under : q.endseq ≤ start := gap.below q (by rw [← sameQ]; exact List.mem_take_iff_getElem.mpr ⟨i - 1, by omega, rfl⟩)
  have beyond : fin ≤ p.startseq := gap.above p (by rw [← sameP]; exact List.mem_drop_iff_getElem.mpr ⟨0, by omega, by simp⟩)
  unfold ReassemblyQueue.fits at fits
  rw [placeBefore, placeP] at fits
  simp [under, beyond] at fits
  refine ⟨fun b member => ?_, fun b member => ?_⟩
  · have most := take_succ_under gap.spaced placeQ b (by rwa [Nat.sub_add_cancel inner])
    omega
  · have least := drop_above gap.spaced placeP b member
    omega

/-- The end of `add`, where nothing may be left to put in. -/
theorem rest_spaced {tiflags : TcpFlag} {rqflags : BitVec 32} {initcnt : ℤ} {needmerge : Bool} (spaced : InOrder s.fifo)
    (gap : start < fin → Gap s.fifo i j start fin)
    (apart : start < fin → needmerge = false → (∀ b ∈ s.fifo.take i, b.endseq < start) ∧ ∀ b ∈ s.fifo.drop j, fin < b.startseq)
    (taken : (if fin ≤ start then do
        let head ← s.fifo.head?
        return (s.advance head.startseq head.endseq, tiflags)
      else s.endfast i j start fin tiflags rqflags initcnt needmerge) = some (next, flags)) : InOrder next.fifo := by
  split_ifs at taken with closed
  · obtain ⟨head, _, answer⟩ := Option.bind_eq_some_iff.mp taken
    cases answer
    exact spaced
  · have room := gap (by omega)
    exact endfast_spaced (by omega) (spaced.sublist (List.take_sublist i _)) (spaced.sublist (List.drop_sublist j _)) room.below room.above
      (apart (by omega)) taken

theorem mergeSides_spaced {tiflags : TcpFlag} {rqflags : BitVec 32} {initcnt : ℤ} (gap : Gap s.fifo i j start fin) (proper : start ≤ fin)
    (outside : ∀ b ∈ (s.fifo.take j).drop i, ¬Inside start fin b)
    (taken : s.mergeSides i j start fin tiflags rqflags initcnt = some (next, flags)) : InOrder next.fifo := by
  unfold mergeSides at taken
  obtain ⟨p, placeP, taken⟩ := Option.bind_eq_some_iff.mp taken
  dsimp only at taken
  by_cases none : j = 0
  · rw [if_pos none] at taken
    cases taken
  have some : 0 < j := Nat.pos_of_ne_zero none
  rw [if_neg none] at taken
  cases left : (decide (i = 0) || decide (p.startseq < start)) with
  | true =>
    simp only [left, if_true, Bool.true_or] at taken
    obtain ⟨q, placeQ, taken⟩ := Option.bind_eq_some_iff.mp taken
    have merged : Gap (s.mergeLeft i p start tiflags).fifo (i + 1) j p.endseq fin :=
      gap.left proper placeP some (by simpa using left) rfl rfl
    cases right : (decide (j = (s.mergeLeft i p start tiflags).fifo.length) || decide (q.endseq > fin)) with
    | true =>
      simp only [right, if_true] at taken
      have merges : j = (s.mergeLeft i p start tiflags).fifo.length ∨ q.endseq > fin := by simpa using right
      have spaced : InOrder ((s.mergeLeft i p start tiflags).mergeRight (j - 1) q fin tiflags).fifo :=
        merged.right_spaced placeQ some merges rfl rfl
      have both : p.endseq < q.startseq →
          Gap ((s.mergeLeft i p start tiflags).mergeRight (j - 1) q fin tiflags).fifo (i + 1) (j - 1) p.endseq q.startseq :=
        merged.right placeQ some merges rfl rfl
      refine rest_spaced spaced both ?_ taken
      rintro _ ⟨⟩
    | false =>
      simp only [right, Bool.false_eq_true, if_false] at taken
      refine rest_spaced merged.spaced (fun _ => merged) ?_ taken
      rintro _ ⟨⟩
  | false =>
    simp only [left, Bool.false_eq_true, if_false, Bool.false_or] at taken
    obtain ⟨q, placeQ, taken⟩ := Option.bind_eq_some_iff.mp taken
    cases right : (decide (j = s.fifo.length) || decide (q.endseq > fin)) with
    | true =>
      simp only [right, if_true, Bool.true_or] at taken
      have merges : j = s.fifo.length ∨ q.endseq > fin := by simpa using right
      have merged : start < q.startseq → Gap (s.mergeRight (j - 1) q fin tiflags).fifo i (j - 1) start q.startseq :=
        gap.right placeQ some merges rfl rfl
      have spaced : InOrder (s.mergeRight (j - 1) q fin tiflags).fifo := gap.right_spaced placeQ some merges rfl rfl
      refine rest_spaced spaced merged ?_ taken
      rintro _ ⟨⟩
    | false =>
      simp only [right, Bool.false_eq_true, if_false, Bool.false_or] at taken
      refine rest_spaced gap.spaced (fun _ => gap) (fun open_ fits => ?_) taken
      simp only [Bool.or_eq_false_iff, decide_eq_false_iff_not] at left right
      have placeJ := (List.getElem?_eq_some_iff.mp placeQ).1
      exact gap.apart outside open_ placeP placeQ (by omega) some (by omega) (by omega) (by omega) fits

end Ends

section Adding

variable {s next : ReassemblyQueue} {flags : TcpFlag} {nodes : List SegInfo} {w next' : Sweep} {start fin : ℤ} {l l' : List SegInfo}

def bounds (b : SegInfo) : ℤ × ℤ := (b.startseq, b.endseq)

theorem InOrder.of_bounds (spaced : InOrder l) (sub : (l'.map bounds).Sublist (l.map bounds)) : InOrder l' := by
  have seen : ∀ l : List SegInfo, Spaced Prod.fst Prod.snd (l.map bounds) ↔ InOrder l := fun _ => spaced_map
  exact (seen l').mp (((seen l).mpr spaced).sublist sub)

/-- The pass of `add` takes blocks away and changes no other. -/
theorem sweep_bounds (start fin : ℤ) (nodes : List SegInfo) (w : Sweep) :
    ((sweep start fin nodes w).1.kept.map bounds).Sublist ((w.kept ++ nodes).map bounds) := by
  fun_induction sweep start fin nodes w with
  | case1 w => simp
  | case2 w r rest exact r' => simp [r', bounds]
  | case3 r rest w other inside ih => exact ih.trans (((List.sublist_cons_self r rest).append_left w.kept).map bounds)
  | case4 r rest w other outside ih =>
    simpa using ih

theorem sweep_altered (altered : w.altered = true) : (sweep start fin nodes w).1.altered = true := by
  fun_induction sweep start fin nodes w with
  | case1 => exact altered
  | case2 => exact altered
  | case3 r rest w other inside ih => exact ih rfl
  | case4 r rest w other outside ih => exact ih altered

/-- A pass that alters nothing has met no block that the segment overlaps completely. -/
theorem sweep_unaltered (ran : sweep start fin nodes w = (next', none)) (unaltered : next'.altered = false) :
    next'.kept = w.kept ++ nodes ∧ ∀ b ∈ nodes, ¬Inside start fin b := by
  fun_induction sweep start fin nodes w with
  | case1 w =>
    cases ran
    simp
  | case2 => cases ran
  | case3 r rest w other inside ih =>
    have altered : (sweep start fin rest { w with
        lifo := w.lifo.erase r.id
        total := w.total - (r.endseq - r.startseq)
        tiflags := w.tiflags ||| r.pflags
        initcnt := w.initcnt + r.cnt
        altered := true }).1.altered = true := sweep_altered rfl
    rw [ran, unaltered] at altered
    cases altered
  | case4 r rest w other outside ih =>
    obtain ⟨kept, all⟩ := ih ran
    refine ⟨by rw [kept, List.append_assoc, List.singleton_append], List.forall_mem_cons.mpr ⟨outside, all⟩⟩

theorem InOrder.search_below (spaced : InOrder l) (start : ℤ) : ∀ b ∈ l.take (l.rdropWhile (·.endseq > start)).length, b.endseq ≤ start := by
  have cut : l.take (l.rdropWhile (·.endseq > start)).length = l.rdropWhile (·.endseq > start) :=
    (List.prefix_iff_eq_take.mp (List.rdropWhile_prefix _ l)).symm
  rw [cut]
  intro b member
  have bare : l.rdropWhile (·.endseq > start) ≠ [] := List.ne_nil_of_mem member
  have last := List.rdropWhile_last_not _ l bare
  have whole := List.dropLast_append_getLast bare
  have kept : InOrder (l.rdropWhile (·.endseq > start)) := spaced.sublist (List.rdropWhile_prefix _ l).sublist
  rw [← whole] at kept member
  have under := Spaced.under_last kept b member
  simp only [decide_eq_true_eq] at last
  omega

theorem InOrder.search_above (spaced : InOrder l) (fin : ℤ) : ∀ b ∈ l.drop (l.takeWhile (·.startseq < fin)).length, fin ≤ b.startseq := by
  have cut : l.drop (l.takeWhile (·.startseq < fin)).length = l.dropWhile (·.startseq < fin) := by
    have whole : l.takeWhile (·.startseq < fin) ++ l.dropWhile (·.startseq < fin) = l := List.takeWhile_append_dropWhile
    calc l.drop (l.takeWhile (·.startseq < fin)).length
      _ = (l.takeWhile (·.startseq < fin) ++ l.dropWhile (·.startseq < fin)).drop (l.takeWhile (·.startseq < fin)).length := by
        rw [whole]
      _ = l.dropWhile (·.startseq < fin) := List.drop_left' rfl
  rw [cut]
  intro b member
  obtain ⟨q, after, whole⟩ := List.exists_cons_of_ne_nil (List.ne_nil_of_mem member)
  have first := List.head?_dropWhile_not (fun b : SegInfo => decide (b.startseq < fin)) l
  have later := (whole ▸ spaced.sublist (List.dropWhile_sublist _)).lo_lt
  rw [whole] at first member
  simp only [List.head?_cons, decide_eq_false_iff_not] at first
  rcases List.mem_cons.mp member with rfl | old
  · omega
  · have less := (List.pairwise_cons.mp later).1 b old
    omega

theorem InOrder.search_order (spaced : InOrder l) (proper : start ≤ fin) :
    (l.rdropWhile (·.endseq > start)).length ≤ (l.takeWhile (·.startseq < fin)).length + 1 := by
  by_contra apart
  have below := spaced.search_below start
  have above := spaced.search_above fin
  have within := (List.rdropWhile_prefix (fun b : SegInfo => decide (b.endseq > start)) l).length_le
  generalize (l.rdropWhile (·.endseq > start)).length = i at *
  generalize (l.takeWhile (·.startseq < fin)).length = j at *
  have under := below l[j] (List.mem_take_iff_getElem.mpr ⟨j, by omega, rfl⟩)
  have under' := below l[j + 1] (List.mem_take_iff_getElem.mpr ⟨j + 1, by omega, rfl⟩)
  have beyond := above l[j] (List.mem_drop_iff_getElem.mpr ⟨0, by omega, by simp⟩)
  have later := List.pairwise_iff_getElem.mp spaced.hi_lt j (j + 1) (by omega) (by omega) (by omega)
  have properJ := spaced.proper l[j] (List.getElem_mem _)
  omega

theorem take_take_drop {i j : ℕ} (order : i ≤ j) : l.take i ++ (l.take j).drop i ++ l.drop j = l := by
  have first : l.take i = (l.take j).take i := by rw [List.take_take, min_eq_left order]
  rw [first, List.take_append_drop, List.take_append_drop]

/-- What the pass over the middle of the list leaves. -/
theorem InOrder.swept {i j : ℕ} {answer : Option TcpFlag} (spaced : InOrder l) (order : i ≤ j) (w : Sweep) (kept : w.kept = l.take i)
    (ran : sweep start fin ((l.take j).drop i) w = (next', answer)) : InOrder (next'.kept ++ l.drop j) := by
  have less := sweep_bounds start fin ((l.take j).drop i) w
  rw [ran, kept] at less
  refine spaced.of_bounds ?_
  have whole := less.append_right ((l.drop j).map bounds)
  rwa [← List.map_append, ← List.map_append, take_take_drop order] at whole

theorem again2_spaced {tiflags : TcpFlag} {rqflags : BitVec 32} {initcnt : ℤ} (spaced : InOrder s.fifo) (proper : start ≤ fin)
    (taken : s.again2 start fin tiflags rqflags initcnt = some (next, flags)) : InOrder next.fifo := by
  fun_induction again2 s start fin tiflags rqflags initcnt with
  | case1 s tiflags initcnt head tail atEnd front beyond =>
    obtain ⟨low, whole⟩ := List.getLast?_eq_some_iff.mp atEnd
    have under : ∀ b ∈ s.fifo, b.endseq ≤ tail.endseq := by
      rw [whole] at spaced ⊢
      exact Spaced.under_last spaced
    refine endfast_spaced proper (by rwa [List.take_length]) (by simp [Spaced.nil]) ?_ (by simp) (fun apart => ⟨?_, by simp⟩) taken
    · rw [List.take_length]
      exact fun b member => (under b member).trans beyond
    · rw [List.take_length]
      have strict : start ≠ tail.endseq := by simpa using apart
      intro b member
      have least := under b member
      omega
  | case2 s tiflags initcnt head tail atEnd front _ beyond =>
    have beneath : ∀ b ∈ s.fifo, head.startseq ≤ b.startseq := by
      have above := drop_above spaced (show s.fifo[0]? = some head by rwa [← List.head?_eq_getElem?])
      rwa [List.drop_zero] at above
    refine endfast_spaced proper (by simp [Spaced.nil]) (by rwa [List.drop_zero]) (by simp) ?_ (fun apart => ⟨by simp, ?_⟩) taken
    · rw [List.drop_zero]
      exact fun b member => le_trans (by omega) (beneath b member)
    · rw [List.drop_zero]
      have strict : fin ≠ head.startseq := by simpa using apart
      intro b member
      have least := beneath b member
      omega
  | case3 s tiflags initcnt head tail atEnd front _ _ j i w flags ran =>
    have order : i - 1 ≤ j := Nat.sub_le_iff_le_add.mpr (spaced.search_order proper)
    cases taken
    exact spaced.swept order _ rfl ran
  | case4 s tiflags initcnt head tail atEnd front _ _ j i w ran next empty =>
    exact endfast_spaced proper (by simp [empty, Spaced.nil]) (by simp [empty, Spaced.nil]) (by simp) (by simp [empty]) (by simp [empty]) taken
  | case5 s tiflags initcnt head tail atEnd front _ _ j i w ran next bare altered ih =>
    have order : i - 1 ≤ j := Nat.sub_le_iff_le_add.mpr (spaced.search_order proper)
    exact ih (spaced.swept order _ rfl ran) taken
  | case6 s tiflags initcnt head tail atEnd front _ _ j i w ran next bare unaltered =>
    have order : i - 1 ≤ j := Nat.sub_le_iff_le_add.mpr (spaced.search_order proper)
    obtain ⟨kept, outside⟩ := sweep_unaltered ran (Bool.eq_false_iff.mpr unaltered)
    have same : next.fifo = s.fifo := by
      rw [show next.fifo = w.kept ++ s.fifo.drop j from rfl, kept]
      exact take_take_drop order
    refine mergeSides_spaced ⟨?_, ?_, ?_⟩ proper ?_ taken
    · rwa [same]
    · rw [same]
      exact spaced.search_below start
    · rw [same]
      exact spaced.search_above fin
    · rw [same]
      exact fun b member => outside b ((List.drop_sublist_drop_left _ (Nat.sub_le i 1)).subset member)
  | case7 => cases taken

theorem add_spaced {tiflags : TcpFlag} {rqflags : BitVec 32} (spaced : InOrder s.fifo)
    (taken : s.add start fin tiflags rqflags = some (next, flags)) : InOrder next.fifo := by
  unfold add at taken
  split_ifs at taken with improper bare linked
  · cases taken
    exact spaced_cons.mpr ⟨Spaced.nil, not_lt.mp improper, by simp⟩
  · exact again2_spaced spaced (not_lt.mp improper) taken

theorem cleartoFrom_spaced (spaced : InOrder l) (seq : ℤ) (s : ReassemblyQueue) (flag : TcpFlag) : InOrder (cleartoFrom seq l s flag).1.fifo := by
  induction l generalizing s flag with
  | nil => exact Spaced.nil
  | cons p rest ih =>
    obtain ⟨later, proper, above⟩ := spaced_cons.mp spaced
    rw [cleartoFrom]
    split_ifs with below within
    · exact ih later _ _
    · exact spaced_cons.mpr ⟨later, within.2.le, above⟩
    · exact spaced

end Adding

/-- Every operation that comes to an end leaves the blocks in order and apart. -/
theorem step_spaced {s next : ReassemblyQueue} {op : Op} {flags : TcpFlag} (spaced : InOrder s.fifo)
    (taken : machine.step s op = some (next, flags)) : InOrder next.fifo := by
  cases op with
  | add g => exact add_spaced spaced taken
  | clearto seq =>
    have cleared := cleartoFrom_spaced spaced seq s 0
    rwa [show cleartoFrom seq s.fifo s 0 = (next, flags) from Option.some.inj taken] at cleared
  | clear =>
    cases taken
    exact Spaced.nil

theorem run_spaced {rcvnxt : ℤ} {ops : List Op} {s : ReassemblyQueue} {outs : List TcpFlag}
    (run : machine.run (make rcvnxt) ops = some (s, outs)) : InOrder s.fifo :=
  Machine.run_kept (fun _ _ _ _ spaced _ taken => step_spaced spaced taken) Spaced.nil (Machine.along_trivial machine _ ops) run

end Ns2.ReassemblyQueue
