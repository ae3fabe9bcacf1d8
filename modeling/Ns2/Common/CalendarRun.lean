import Mathlib.Data.Nat.ModEq
import Ns2.Common.CalendarStore

namespace Ns2.CalendarScheduler

variable {s : CalendarScheduler} {l : List Event} {e : Event} {k j : ℕ} {v : Search}

theorem succ_mod {n : ℕ} (some : 0 < n) (a : ℕ) : (a + 1) % n = if a % n + 1 = n then 0 else a % n + 1 := by
  have below := Nat.mod_lt a some
  rw [← Nat.mod_add_mod a n 1]
  split_ifs with last
  · rw [last, Nat.mod_self]
  · exact Nat.mod_eq_of_lt (by omega)

theorem pred_mod {n : ℕ} (some : 0 < n) (a : ℕ) :
    (a + (n - 1)) % n = if a % n ≠ 0 then a % n - 1 else n - 1 := by
  have below := Nat.mod_lt a some
  rw [← Nat.mod_add_mod a n (n - 1)]
  split_ifs with middle
  · rw [show a % n + (n - 1) = a % n - 1 + n by omega, Nat.add_mod_right]
    exact Nat.mod_eq_of_lt (by omega)
  · rw [not_not.mp middle, Nat.zero_add]
    exact Nat.mod_eq_of_lt (by omega)

/-- The search has left `j` buckets behind, from that of the day `k` on. -/
structure Reached (s : CalendarScheduler) (l : List Event) (k j : ℕ) (v : Search) : Prop where
  index : v.i = (k + j) % s.nbuckets
  due : ∀ x ∈ l, k + j ≤ day s.width x
  held : ∀ m ∈ v.minE, m ∈ l ∧ v.l = some (day s.width m % s.nbuckets) ∧ ∀ x ∈ l, x.time = m.time → m ≤ x
  seen : ∀ x ∈ l, (∃ i < j, day s.width x % s.nbuckets = (k + i) % s.nbuckets) → ∃ m ∈ v.minE, m.time ≤ x.time

/-- What `head` is looking for. -/
structure Found (s : CalendarScheduler) (l : List Event) (v : Search) (e : Event) : Prop where
  member : e ∈ l
  least : ∀ x ∈ l, e ≤ x
  bucket : v.l = some (day s.width e % s.nbuckets)

/-- The head of a bucket is due today if it comes before the threshold. -/
theorem threshold_iff (stores : s.Stores l) (grid : s.Grid) (nonneg : ∀ x ∈ l, 0 ≤ x.time)
    (today : ⌊s.calClock / s.width⌋₊ = k) (due : ∀ x ∈ l, k + j ≤ day s.width x)
    (first : (s.buckets ((k + j) % s.nbuckets)).list.head? = some e) {diff : ℚ} (low : (j + 1) * s.width ≤ diff)
    (high : diff ≤ (j + s.nbuckets - 1) * s.width) : e.time - s.calClock < diff ↔ day s.width e = k + j := by
  have member := (stores.files.head_mem first).1
  have clockHigh : s.calClock < (k + 1) * s.width := by
    rw [← today]
    exact (div_lt_iff₀ grid.positive).mp (Nat.lt_floor_add_one _)
  have clockLow : k * s.width ≤ s.calClock := by
    rw [← today]
    exact (le_div_iff₀ grid.positive).mp (Nat.floor_le (div_nonneg grid.nonneg grid.positive.le))
  constructor
  · intro below
    by_contra other
    have year : k + j + s.nbuckets ≤ day s.width e := stores.files.head_day due first other
    have year : ((k + j + s.nbuckets : ℕ) : ℚ) * s.width ≤ e.time :=
      (mul_le_mul_of_nonneg_right (Nat.cast_le.mpr year) grid.positive.le).trans
        (le_of_day grid.positive (nonneg e member))
    push_cast at year
    nlinarith
  · intro same
    have before := lt_of_day grid.positive e
    rw [same] at before
    push_cast at before
    nlinarith

/-- One `CAL_DEQUEUE`. -/
theorem calDequeue_spec (stores : s.Stores l) (grid : s.Grid) (nonneg : ∀ x ∈ l, 0 ≤ x.time)
    (today : ⌊s.calClock / s.width⌋₊ = k) (reached : Reached s l k j v) (diff : ℚ) (low : (j + 1) * s.width ≤ diff)
    (high : diff ≤ (j + s.nbuckets - 1) * s.width) :
    (∃ v' e, s.calDequeue diff v = .inl (v', e) ∧ Found s l v' e) ∨
      ∃ v', s.calDequeue diff v = .inr v' ∧ Reached s l k (j + 1) v' := by
  have monotone := day_monotone grid.positive
  have next : (if (k + j) % s.nbuckets + 1 = s.nbuckets then 0 else (k + j) % s.nbuckets + 1) = (k + (j + 1)) % s.nbuckets :=
    (succ_mod grid.some (k + j)).symm
  rw [calDequeue, reached.index]
  simp only
  rw [next]
  cases ring : (s.buckets ((k + j) % s.nbuckets)).list with
  | nil =>
    have nobody : ∀ x ∈ l, day s.width x % s.nbuckets ≠ (k + j) % s.nbuckets := by
      intro x member here
      have inside : x ∈ (s.buckets ((k + j) % s.nbuckets)).list := (stores.files.member _ x).mpr ⟨member, here⟩
      rw [ring] at inside
      exact List.not_mem_nil inside
    have due : ∀ x ∈ l, k + j + 1 ≤ day s.width x := stores.files.tomorrow monotone reached.due fun e first => by
      rw [ring] at first
      exact absurd first (Option.not_mem_none e)
    refine Or.inr ⟨_, rfl, rfl, due, reached.held, ?_⟩
    rintro x member ⟨i, below, here⟩
    rcases Nat.lt_succ_iff_lt_or_eq.mp below with earlier | rfl
    · exact reached.seen x member ⟨i, earlier, here⟩
    · exact absurd here (nobody x member)
  | cons e rest =>
    have first : (s.buckets ((k + j) % s.nbuckets)).list.head? = some e := by rw [ring]; rfl
    obtain ⟨member, here⟩ := stores.files.head_mem first
    have exactly := threshold_iff stores grid nonneg today reached.due first low high
    simp only
    by_cases below : e.time - s.calClock < diff
    · rw [if_pos below]
      refine Or.inl ⟨_, e, rfl, member, stores.files.least monotone reached.due first (exactly.mp below), ?_⟩
      rw [here]
    · rw [if_neg below]
      have due := stores.files.tomorrow monotone reached.due fun e' first' => by
        rw [Option.some.inj (first'.symm.trans first)]
        exact mt exactly.mpr below
      have bucket := stores.files.head_le first
      split_ifs with smaller
      · refine Or.inr ⟨_, rfl, rfl, due, fun m same => ?_, ?_⟩
        · cases Option.some.inj same
          refine ⟨member, by rw [here], fun x member same => bucket x member ?_⟩
          rw [day, same, ← day, here]
        · rintro x member ⟨i, before, place⟩
          rcases Nat.lt_succ_iff_lt_or_eq.mp before with earlier | rfl
          · obtain ⟨m, held, low⟩ := reached.seen x member ⟨i, earlier, place⟩
            exact ⟨e, rfl, (smaller m held).le.trans low⟩
          · exact ⟨e, rfl, Event.time_le_of_le (bucket x member place)⟩
      · refine Or.inr ⟨_, rfl, rfl, due, reached.held, ?_⟩
        rintro x member ⟨i, before, place⟩
        rcases Nat.lt_succ_iff_lt_or_eq.mp before with earlier | rfl
        · exact reached.seen x member ⟨i, earlier, place⟩
        · simp only [not_forall, not_lt] at smaller
          obtain ⟨m, held, low⟩ := smaller
          exact ⟨m, held, low.trans (Event.time_le_of_le (bucket x member place))⟩

/-- The minimum is taken when one bucket is left. -/
theorem takeMin_spec (stores : s.Stores l) (some : l ≠ []) (wide : 0 < s.nbuckets)
    (reached : Reached s l k (s.nbuckets - 1) v) : ∃ v' e, s.takeMin v = Option.some (v', e) ∧ Found s l v' e := by
  -- What is not behind the search is in the bucket that is left.
  have places : ∀ x ∈ l, (∃ m ∈ v.minE, m.time ≤ x.time) ∨ day s.width x % s.nbuckets = v.i := by
    intro x member
    have due := reached.due x member
    have below := Nat.mod_lt (day s.width x - k) wide
    have place : day s.width x % s.nbuckets = (k + (day s.width x - k) % s.nbuckets) % s.nbuckets := by
      rw [Nat.add_mod_mod]
      congr 1
      omega
    by_cases last : (day s.width x - k) % s.nbuckets = s.nbuckets - 1
    · rw [last] at place
      exact Or.inr (place.trans reached.index.symm)
    · exact Or.inl (reached.seen x member ⟨_, by omega, place⟩)
  have smallest : ∀ m ∈ v.minE, (∀ x ∈ l, m.time ≤ x.time) → Found s l v m := by
    intro m held low
    obtain ⟨member, bucket, first⟩ := reached.held m held
    refine ⟨member, fun x inside => ?_, bucket⟩
    rcases (low x inside).eq_or_lt with same | earlier
    · exact first x inside same.symm
    · exact (Event.lt_iff.mpr (Or.inl earlier)).le
  rw [takeMin]
  cases ring : (s.buckets v.i).list with
  | nil =>
    have nobody : ∀ x ∈ l, day s.width x % s.nbuckets ≠ v.i := by
      intro x member here
      have inside : x ∈ (s.buckets v.i).list := (stores.files.member _ x).mpr ⟨member, here⟩
      rw [ring] at inside
      exact List.not_mem_nil inside
    cases held : v.minE with
    | none =>
      obtain ⟨x, rest, rfl⟩ := List.exists_cons_of_ne_nil some
      rcases places x List.mem_cons_self with ⟨m, nothing, _⟩ | here
      · exact absurd (held ▸ nothing) (Option.not_mem_none m)
      · exact absurd here (nobody x List.mem_cons_self)
    | some m =>
      refine ⟨v, m, rfl, smallest m held fun x member => ?_⟩
      obtain ⟨m', held', low⟩ := (places x member).resolve_right (nobody x member)
      exact Option.some.inj (held.symm.trans held') ▸ low
  | cons e rest =>
    have first : (s.buckets v.i).list.head? = Option.some e := by
      rw [ring]
      rfl
    obtain ⟨member, here⟩ := stores.files.head_mem first
    have bucket := stores.files.head_le first
    have taken : (∀ m ∈ v.minE, ¬m.time < e.time) → ∀ v' : Search, v'.l = Option.some v.i → Found s l v' e := by
      intro others v' bucket'
      refine ⟨member, fun x inside => ?_, by rw [here, bucket']⟩
      rcases places x inside with ⟨m, held, low⟩ | here'
      · rcases (not_lt.mp (others m held)).eq_or_lt with same | earlier
        · obtain ⟨_, _, least⟩ := reached.held m held
          rcases low.eq_or_lt with equal | later
          · exact bucket x inside (by rw [day, ← equal, ← same, ← day, here])
          · exact (Event.lt_iff.mpr (Or.inl (same.trans_lt later))).le
        · exact (Event.lt_iff.mpr (Or.inl (earlier.trans_le low))).le
      · exact bucket x inside here'
    cases held : v.minE with
    | none => exact ⟨_, e, rfl, taken (fun m nothing => absurd (held ▸ nothing) (Option.not_mem_none m)) _ rfl⟩
    | some m =>
      by_cases smaller : m.time < e.time
      · refine ⟨v, m, congrArg Option.some (if_pos smaller), smallest m held fun x inside => ?_⟩
        rcases places x inside with ⟨m', held', low⟩ | here'
        · exact Option.some.inj (held.symm.trans held') ▸ low
        · exact smaller.le.trans (Event.time_le_of_le (bucket x inside here'))
      · refine ⟨_, e, congrArg Option.some (if_neg smaller), taken (fun m' held' => ?_) _ rfl⟩
        exact Option.some.inj (held.symm.trans held') ▸ smaller

theorem searchOn_spec (stores : s.Stores l) (grid : s.Grid) (nonneg : ∀ x ∈ l, 0 ≤ x.time) (some : l ≠ [])
    (today : ⌊s.calClock / s.width⌋₊ = k) (reached : Reached s l k j v) (second : 2 ≤ j) {rounds : ℕ}
    (enough : s.nbuckets ≤ rounds + j) (within : j < s.nbuckets) :
    ∃ v' e, s.searchOn ((k + (s.nbuckets - 1)) % s.nbuckets) rounds v = Option.some (v', e) ∧ Found s l v' e := by
  induction rounds generalizing j v with
  | zero => omega
  | succ rounds ih =>
    rw [searchOn, reached.index]
    by_cases last : j = s.nbuckets - 1
    · rw [if_pos (by rw [last])]
      exact takeMin_spec stores some grid.some (last ▸ reached)
    · have apart : ¬(k + j) % s.nbuckets = (k + (s.nbuckets - 1)) % s.nbuckets := fun same => by
        have equal := Nat.ModEq.add_left_cancel' k same
        rw [Nat.ModEq, Nat.mod_eq_of_lt within, Nat.mod_eq_of_lt (by omega)] at equal
        exact last equal
      have low : ((j : ℚ) + 1) * s.width ≤ s.diff2 := by
        have fits : ((j + 1 : ℕ) : ℚ) ≤ s.nbuckets := Nat.cast_le.mpr within
        rw [grid.diff2, mul_comm s.width]
        push_cast at fits
        exact mul_le_mul_of_nonneg_right fits grid.positive.le
      have high : s.diff2 ≤ ((j : ℚ) + s.nbuckets - 1) * s.width := by
        have far : ((1 : ℕ) : ℚ) ≤ j := Nat.cast_le.mpr (by omega)
        rw [grid.diff2, mul_comm s.width]
        push_cast at far
        exact mul_le_mul_of_nonneg_right (by linarith) grid.positive.le
      rw [if_neg apart]
      rcases calDequeue_spec stores grid nonneg today reached s.diff2 low high with ⟨v', e, jumped, found⟩ | ⟨v', on, reached'⟩
      · rw [jumped]
        exact ⟨v', e, rfl, found⟩
      · rw [on]
        exact ih reached' (by omega) (by omega) (by omega)

theorem search_spec (stores : s.Stores l) (grid : s.Grid) (nonneg : ∀ x ∈ l, 0 ≤ x.time) (some : l ≠ [])
    (clock : ∀ x ∈ l, s.calClock ≤ x.time) : ∃ v e, s.search = Option.some (v, e) ∧ Found s l v e := by
  have four_le := grid.four_le
  have wide : ((4 : ℕ) : ℚ) ≤ s.nbuckets := Nat.cast_le.mpr four_le
  have positive := grid.positive
  have bucket : s.lastbucket = ⌊s.calClock / s.width⌋₊ % s.nbuckets :=
    grid.lastbucket.trans (hash_eq grid.nonneg positive grid.some)
  have begins : Reached s l ⌊s.calClock / s.width⌋₊ 0 ⟨s.headSearch, none, s.lastbucket, none⟩ := by
    refine ⟨bucket, fun x member => ?_, fun m held => absurd held (Option.not_mem_none m), fun x _ behind => ?_⟩
    · exact Nat.floor_mono (div_le_div_of_nonneg_right (clock x member) positive.le)
    · obtain ⟨i, below, _⟩ := behind
      exact absurd below (Nat.not_lt_zero i)
  push_cast at wide
  rw [search]
  rcases calDequeue_spec stores grid nonneg rfl begins s.diff0 (by rw [grid.diff0]; push_cast; nlinarith)
    (by rw [grid.diff0]; push_cast; nlinarith) with ⟨v, e, jumped, found⟩ | ⟨v, on, reached⟩
  · rw [jumped]
    exact ⟨v, e, rfl, found⟩
  rw [on]
  simp only
  rcases calDequeue_spec stores grid nonneg rfl reached s.diff1 (by rw [grid.diff1]; push_cast; nlinarith)
    (by rw [grid.diff1]; push_cast; nlinarith) with ⟨v', e, jumped, found⟩ | ⟨v', on', reached'⟩
  · rw [jumped]
    exact ⟨v', e, rfl, found⟩
  rw [on', bucket, ← pred_mod grid.some]
  exact searchOn_spec stores grid nonneg some rfl reached' le_rfl (by omega) (by omega)

/-- The calendar holds the events of the list scheduler, none of which is earlier than `cal_clock_`. -/
structure Holds (s : CalendarScheduler) (q : ListScheduler) : Prop where
  ordered : q.Ordered
  stores : s.Stores q.queue
  grid : s.Grid
  clock : ∀ x ∈ q.queue, s.calClock ≤ x.time

variable {q : ListScheduler}

theorem Holds.nonneg (holds : s.Holds q) : ∀ x ∈ q.queue, 0 ≤ x.time := fun x member =>
  holds.grid.nonneg.trans (holds.clock x member)

theorem make_holds (minBinWidth : ℚ) (adjustNewWidthInterval : ℕ) :
    (make minBinWidth adjustNewWidthInterval).Holds ListScheduler.empty := by
  refine ⟨ListScheduler.empty_ordered, ⟨Calendar.Files.nil _ _, fun _ => rfl, rfl, rfl⟩,
    ⟨one_pos, le_rfl, rfl, rfl, rfl, le_rfl, rfl⟩, fun x member => absurd member List.not_mem_nil⟩

/-- The counters of the automatic adjustment do not matter. -/
theorem Holds.congr {s' : CalendarScheduler} (holds : s.Holds q)
    (same : s' = { s with
      timeToNewwidth := s'.timeToNewwidth, headSearch := s'.headSearch, insertSearch := s'.insertSearch
      roundNum := s'.roundNum, gapNum := s'.gapNum, lastTime := s'.lastTime }) : s'.Holds q := by
  have grid := holds.grid
  rw [same]
  exact ⟨holds.ordered, holds.stores.congr rfl rfl rfl rfl rfl, ⟨grid.positive, grid.four_le, grid.diff0, grid.diff1,
    grid.diff2, grid.nonneg, grid.lastbucket⟩, holds.clock⟩

theorem Holds.resize (holds : s.Holds q) (newsize : ℕ) (w : Widths) : (s.resize newsize s.calClock w).Holds q := by
  obtain ⟨stores, grid, clock⟩ := resize_spec holds.stores holds.grid holds.ordered.distinct.nodup holds.nonneg newsize w
  exact ⟨holds.ordered, stores, grid, by rw [clock]; exact holds.clock⟩

theorem Holds.setBack (holds : s.Holds q) {newtime : ℚ} (nonneg : 0 ≤ newtime) :
    (s.setBack newtime).Holds q ∧ (s.setBack newtime).calClock ≤ newtime := by
  rw [CalendarScheduler.setBack]
  split_ifs with earlier
  · have grid := holds.grid
    exact ⟨⟨holds.ordered, holds.stores.congr rfl rfl rfl rfl rfl,
      ⟨grid.positive, grid.four_le, grid.diff0, grid.diff1, grid.diff2, nonneg, rfl⟩,
      fun x member => earlier.le.trans (holds.clock x member)⟩, le_rfl⟩
  · exact ⟨holds, not_lt.mp earlier⟩

theorem Holds.insert (holds : s.Holds q) (admitted : q.Admissible (.insert e)) (nonneg : 0 ≤ e.time) (w : Widths) :
    (s.insert e w).Holds (q.insert e) := by
  obtain ⟨back, low⟩ := holds.setBack nonneg
  have stores := link_stores back.stores back.grid.positive back.grid.some nonneg admitted.2
  have linked : ((s.setBack e.time).link e).Holds (q.insert e) := by
    refine ⟨holds.ordered.insert admitted, stores.perm (ListScheduler.link_perm e q.queue).symm, link_grid back.grid e, ?_⟩
    intro x member
    rcases List.mem_cons.mp ((ListScheduler.link_perm e q.queue).mem_iff.mp member) with rfl | old
    · exact low
    · exact back.clock x old
  rw [CalendarScheduler.insert]
  split_ifs
  · exact linked.resize _ w
  · exact linked

theorem Holds.cancel (holds : s.Holds q) (admitted : q.Admissible (.cancel e)) :
    ∃ next qnext, s.cancel e = some next ∧ q.cancel e = some qnext ∧ next.Holds qnext := by
  obtain ⟨next, cancelled, stores, grid, clock⟩ := cancel_spec holds.stores holds.grid holds.ordered.distinct.nodup
    (holds.nonneg e admitted) admitted (holds.ordered.queued e admitted)
  refine ⟨next, _, cancelled, holds.ordered.distinct.cancel admitted, holds.ordered.erase e, stores, grid, ?_⟩
  exact fun x member => clock ▸ holds.clock x (List.mem_of_mem_erase member)

/-- `head` finds the first event of the list, and moves to its bucket. -/
theorem Holds.head (holds : s.Holds q) :
    ∃ next, s.head = some (next, q.head) ∧ next.Holds q ∧ ∀ e ∈ q.head, next.calClock = e.time := by
  have size := holds.stores.size
  rw [CalendarScheduler.head]
  by_cases empty : q.queue = []
  · rw [empty] at size
    have none : q.head = none := by rw [ListScheduler.head, empty]; rfl
    rw [none, if_pos (by simpa using size)]
    exact ⟨s, rfl, holds, fun e member => absurd member (Option.not_mem_none e)⟩
  · obtain ⟨v, e, searched, found⟩ := search_spec holds.stores holds.grid holds.nonneg empty holds.clock
    have some : s.qsize ≠ 0 := by
      have length := List.length_pos_of_ne_nil empty
      omega
    obtain ⟨first, rest, queue⟩ := List.exists_cons_of_ne_nil empty
    have same : first = e := by
      have sorted := holds.ordered.sorted
      have member := found.member
      have low := found.least first (queue ▸ List.mem_cons_self)
      rw [queue] at sorted member
      rcases List.mem_cons.mp member with same | later
      · exact same.symm
      · exact absurd ((List.pairwise_cons.mp sorted).1 e later) (not_lt.mpr low)
    have answer : q.head = Option.some e := by rw [ListScheduler.head, queue, same]; rfl
    rw [if_neg some, searched, answer]
    simp only [Option.bind_eq_bind, Option.bind_some, found.bucket]
    have grid := holds.grid
    have nonneg := holds.nonneg e found.member
    refine ⟨_, rfl, ⟨holds.ordered, holds.stores.congr rfl rfl rfl rfl rfl, ⟨grid.positive, grid.four_le, grid.diff0,
      grid.diff1, grid.diff2, nonneg, (hash_time nonneg grid.positive grid.some).symm⟩, ?_⟩, ?_⟩
    · exact fun x member => Event.time_le_of_le (found.least x member)
    · exact fun e' member => by rw [Option.some.inj member]

theorem Holds.adjust (holds : s.Holds q) (e : Event) (w : Widths) :
    (s.adjust e w).Holds q ∧ (s.adjust e w).calClock = s.calClock := by
  rw [CalendarScheduler.adjust]
  split_ifs with disabled unset round
  · exact ⟨holds, rfl⟩
  · exact ⟨holds.congr rfl, rfl⟩
  · have counted : Holds { s with gapNum := 0, lastTime := e.time, roundNum := s.roundNum + 1 } q := holds.congr rfl
    simp only
    split_ifs with unbalanced late
    · obtain ⟨_, _, clock⟩ := resize_spec counted.stores counted.grid holds.ordered.distinct.nodup holds.nonneg s.nbuckets w
      exact ⟨(counted.resize s.nbuckets w).congr rfl, clock⟩
    · exact ⟨counted.congr rfl, rfl⟩
    · exact ⟨counted, rfl⟩
  · exact ⟨holds.congr rfl, rfl⟩

theorem Holds.deque (holds : s.Holds q) (w w' : Widths) :
    ∃ next, s.deque w w' = some (next, q.deque.2) ∧ next.Holds q.deque.1 := by
  obtain ⟨found, answered, holds', clock⟩ := holds.head
  rw [CalendarScheduler.deque, answered, ListScheduler.deque, ListScheduler.head] at *
  cases queue : q.queue with
  | nil => exact ⟨found, rfl, holds'⟩
  | cons e rest =>
    obtain ⟨adjusted, same⟩ := holds'.adjust e w
    have first : found.calClock = e.time := clock e (by rw [queue]; rfl)
    have ordered := holds.ordered
    have sorted := ordered.sorted
    rw [queue] at sorted
    have member : e ∈ q.queue := queue ▸ List.mem_cons_self
    have least : ∀ x ∈ q.queue, e ≤ x := by
      rw [queue]
      exact List.forall_mem_cons.mpr ⟨le_rfl, fun x later => ((List.pairwise_cons.mp sorted).1 x later).le⟩
    have nonneg := holds.nonneg e member
    have place : (found.adjust e w).lastbucket = day (found.adjust e w).width e % (found.adjust e w).nbuckets := by
      rw [adjusted.grid.lastbucket, same, first, hash_time nonneg adjusted.grid.positive adjusted.grid.some]
    obtain ⟨next, unlinked, stores, grid, clock'⟩ := unlinkHead_spec adjusted.stores adjusted.grid ordered.distinct.nodup
      (by rw [place]; exact adjusted.stores.files.head_of_least member least)
    rw [queue, List.erase_cons_head] at stores
    have left : next.Holds ⟨rest⟩ := by
      refine ⟨ListScheduler.Ordered.tail (e := e) ?_, stores, grid, fun x member => ?_⟩
      · rw [← queue]
        exact ordered
      · rw [clock']
        exact adjusted.clock x (queue ▸ List.mem_cons_of_mem e member)
    simp only [Option.bind_eq_bind, Option.bind_some, List.head?_cons, unlinked]
    split_ifs
    · exact ⟨_, rfl, left.resize _ w'⟩
    · exact ⟨_, rfl, left⟩

/-- The times of the events are not negative. -/
def Timed : SchedulerOp → Prop
  | .insert e => 0 ≤ e.time
  | _ => True

instance Timed.decidable : (op : SchedulerOp) → Decidable (Timed op)
  | .insert e => inferInstanceAs (Decidable (0 ≤ e.time))
  | .cancel _ | .head | .deque => isTrue trivial

theorem Holds.step (holds : s.Holds q) (call : SchedulerOp × Widths × Widths) (timed : Timed call.1)
    (admitted : q.Admissible call.1) : ∃ next qnext out, machine.step s call = some (next, out) ∧
      (ListScheduler.machine.comap Prod.fst).step q call = some (qnext, out) ∧ next.Holds qnext := by
  obtain ⟨op, w, w'⟩ := call
  cases op with
  | insert e => exact ⟨_, _, none, rfl, rfl, holds.insert admitted timed w'⟩
  | cancel e =>
    obtain ⟨next, qnext, cancelled, qcancelled, after⟩ := holds.cancel admitted
    refine ⟨next, qnext, none, congrArg (Option.map _) cancelled, congrArg (Option.map _) qcancelled, after⟩
  | head =>
    obtain ⟨next, found, after, _⟩ := holds.head
    exact ⟨next, q, q.head, found, rfl, after⟩
  | deque =>
    obtain ⟨next, taken, after⟩ := holds.deque w w'
    exact ⟨next, _, _, taken, rfl, after⟩

/-- With whatever widths its resizes compute, a run of the calendar answers as the list scheduler does, and ends with
the events that are left filed in its buckets. -/
theorem calendar_refines_list (minBinWidth : ℚ) (adjustNewWidthInterval : ℕ)
    (calls : List (SchedulerOp × Widths × Widths)) (timed : ∀ op ∈ calls.map Prod.fst, Timed op)
    (admitted : ListScheduler.machine.Along ListScheduler.Admissible ListScheduler.empty (calls.map Prod.fst)) :
    ∃ s q answers, machine.run (make minBinWidth adjustNewWidthInterval) calls = some (s, answers) ∧
      ListScheduler.machine.run ListScheduler.empty (calls.map Prod.fst) = some (q, answers) ∧
      q.queue.Pairwise (· < ·) ∧ s.qsize = q.queue.length ∧
      ∀ e, e ∈ q.queue ↔ ∃ i < s.nbuckets, e ∈ (s.buckets i).list := by
  have times : machine.Along (fun _ call => Timed call.1) (make minBinWidth adjustNewWidthInterval) calls :=
    Machine.along_of_forall fun call member => timed call.1 (List.mem_map_of_mem member)
  obtain ⟨s, q, answers, run, qrun, holds⟩ := Machine.run_simulation (M := machine)
    (A := ListScheduler.machine.comap Prod.fst) (fun _ _ call holds timed admitted => Holds.step holds call timed admitted)
    (make_holds minBinWidth adjustNewWidthInterval) times (Machine.along_comap Prod.fst admitted)
  rw [Machine.run_comap] at qrun
  refine ⟨s, q, answers, run, qrun, holds.ordered.sorted, holds.stores.size, fun e => ⟨fun member => ?_, ?_⟩⟩
  · exact ⟨_, Nat.mod_lt _ holds.grid.some, (holds.stores.files.member _ e).mpr ⟨member, rfl⟩⟩
  · rintro ⟨i, _, inside⟩
    exact ((holds.stores.files.member i e).mp inside).1

/-- Two events of one time among ten, enough for a resize, and an event taken out between. -/
def sampleCalls : List (SchedulerOp × Widths × Widths) :=
  ([.insert ⟨5, 1⟩, .insert ⟨2, 2⟩, .insert ⟨5, 3⟩, .insert ⟨9, 4⟩, .insert ⟨1, 5⟩, .insert ⟨14, 6⟩, .insert ⟨8, 7⟩,
    .insert ⟨3, 8⟩, .insert ⟨7, 9⟩, .insert ⟨6, 10⟩, .cancel ⟨3, 8⟩, .deque, .deque, .deque, .deque, .head] :
      List SchedulerOp).map fun op => (op, ⟨⟨2, two_pos⟩, ⟨3, three_pos⟩⟩, ⟨⟨2, two_pos⟩, ⟨3, three_pos⟩⟩)

theorem calendar_refines_list_sample :
    ∃ s q answers, machine.run (make 0 1) sampleCalls = some (s, answers) ∧
      ListScheduler.machine.run ListScheduler.empty (sampleCalls.map Prod.fst) = some (q, answers) ∧
      q.queue.Pairwise (· < ·) ∧ s.qsize = q.queue.length ∧
      ∀ e, e ∈ q.queue ↔ ∃ i < s.nbuckets, e ∈ (s.buckets i).list :=
  calendar_refines_list 0 1 sampleCalls (by decide +kernel) (by decide +kernel)

end Ns2.CalendarScheduler
