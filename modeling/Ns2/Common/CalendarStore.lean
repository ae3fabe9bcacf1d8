import Mathlib.Algebra.Order.Floor.Ring
import Mathlib.Data.Finset.Card
import Ns2.Common.CalendarScheduler

namespace Ns2

/-- The distinct times of some events. -/
def times (l : List Event) : Finset ℚ := (l.map Event.time).toFinset

theorem mem_times {t : ℚ} {l : List Event} : t ∈ times l ↔ ∃ x ∈ l, x.time = t := by
  rw [times, List.mem_toFinset, List.mem_map]

theorem times_congr {l l' : List Event} (same : ∀ x, x ∈ l ↔ x ∈ l') : times l = times l' := by
  ext t
  simp only [mem_times, same]

theorem times_cons (e : Event) (l : List Event) : times (e :: l) = insert e.time (times l) := by
  rw [times, List.map_cons, List.toFinset_cons, times]

theorem card_insert_time (t : ℚ) (present : Finset ℚ) :
    ((insert t present).card : ℤ) = present.card + if t ∈ present then 0 else 1 := by
  rw [Finset.card_insert_eq_ite]
  split_ifs <;> simp

namespace CalendarScheduler

variable {s : CalendarScheduler} {l : List Event} {e : Event} {w : ℚ}

def day (width : ℚ) (e : Event) : ℕ := ⌊e.time / width⌋₊

theorem day_monotone (positive : 0 < w) : Monotone (day w) := fun _ _ ordered =>
  Nat.floor_mono (div_le_div_of_nonneg_right (Event.time_le_of_le ordered) positive.le)

theorem lt_of_day (positive : 0 < w) (e : Event) : e.time < (day w e + 1) * w :=
  (div_lt_iff₀ positive).mp (Nat.lt_floor_add_one _)

theorem le_of_day (positive : 0 < w) (nonneg : 0 ≤ e.time) : day w e * w ≤ e.time :=
  (le_div_iff₀ positive).mp (Nat.floor_le (div_nonneg nonneg positive.le))

theorem hash_eq {t : ℚ} (nonneg : 0 ≤ t) (positive : 0 < s.width) (some : 0 < s.nbuckets) :
    s.hash t = ⌊t / s.width⌋₊ % s.nbuckets := by
  have quotient : 0 ≤ t / s.width := div_nonneg nonneg positive.le
  have years : 0 ≤ t / s.width / s.nbuckets := div_nonneg quotient (Nat.cast_nonneg _)
  have floored : ⌊t / s.width⌋ = (⌊t / s.width⌋₊ : ℤ) := (Int.natCast_floor_eq_floor quotient).symm
  have rest : fmod (t / s.width) s.nbuckets = t / s.width - ((⌊t / s.width⌋ / s.nbuckets * s.nbuckets : ℤ) : ℚ) := by
    rw [fmod, truncate, if_pos years, Int.floor_div_natCast]
    push_cast
    rfl
  have whole : ⌊fmod (t / s.width) s.nbuckets⌋ = ⌊t / s.width⌋ % s.nbuckets := by
    rw [rest, Int.floor_sub_intCast, Int.emod_def, mul_comm]
  have below : 0 ≤ fmod (t / s.width) s.nbuckets := by
    rw [← Int.floor_nonneg, whole]
    exact Int.emod_nonneg _ (by omega)
  rw [hash, truncate, if_pos below, whole, floored]
  omega

theorem hash_time (nonneg : 0 ≤ e.time) (positive : 0 < s.width) (some : 0 < s.nbuckets) :
    s.hash e.time = day s.width e % s.nbuckets := hash_eq nonneg positive some

/-- The buckets hold the events of `l`, and the three counts are right. -/
structure Stores (s : CalendarScheduler) (l : List Event) : Prop where
  files : Calendar.Files (day s.width) s.nbuckets (fun i => (s.buckets i).list) l
  counted : ∀ i, (s.buckets i).count = (times (s.buckets i).list).card
  priorities : s.statQsize = (times l).card
  size : s.qsize = l.length

theorem Stores.perm (stores : s.Stores l) {l' : List Event} (same : l.Perm l') : s.Stores l' where
  files := stores.files.congr fun _ => same.mem_iff
  counted := stores.counted
  priorities := by rw [stores.priorities, times_congr fun _ => same.mem_iff]
  size := by rw [stores.size, same.length_eq]

theorem setBucket_self (s : CalendarScheduler) (i : ℕ) (list : List Event) (priorities events : ℤ) :
    (s.setBucket i list priorities events).buckets i = ⟨list, (s.buckets i).count + priorities⟩ :=
  Function.update_self ..

theorem setBucket_of_ne (s : CalendarScheduler) {i j : ℕ} (other : j ≠ i) (list : List Event) (priorities events : ℤ) :
    (s.setBucket i list priorities events).buckets j = s.buckets j := Function.update_of_ne other ..

theorem setBucket_lists (s : CalendarScheduler) (i : ℕ) (list : List Event) (priorities events : ℤ) :
    (fun j => ((s.setBucket i list priorities events).buckets j).list) =
      Function.update (fun j => (s.buckets j).list) i list := by
  funext j
  by_cases same : j = i
  · rw [same, setBucket_self, Function.update_self]
  · rw [setBucket_of_ne s same, Function.update_of_ne same]

/-- The count of a bucket that is exchanged, and of the others. -/
theorem setBucket_counted (stores : s.Stores l) {i : ℕ} {list : List Event} {priorities : ℤ} (events : ℤ)
    (changed : ((times (s.buckets i).list).card : ℤ) + priorities = (times list).card) (j : ℕ) :
    ((s.setBucket i list priorities events).buckets j).count =
      (times ((s.setBucket i list priorities events).buckets j).list).card := by
  by_cases same : j = i
  · rw [same, setBucket_self, ← changed, stores.counted i]
  · rw [setBucket_of_ne s same]
    exact stores.counted j

/-- Events of one time share a bucket. -/
theorem Stores.time_mem_iff (stores : s.Stores l) (e : Event) :
    e.time ∈ times (s.buckets (day s.width e % s.nbuckets)).list ↔ e.time ∈ times l := by
  rw [mem_times, mem_times]
  constructor
  · rintro ⟨x, member, same⟩
    exact ⟨x, ((stores.files.member _ x).mp member).1, same⟩
  · rintro ⟨x, member, same⟩
    exact ⟨x, (stores.files.member _ x).mpr ⟨member, by rw [day, same, day]⟩, same⟩

section Rings

variable {before after : List Event}

theorem pairwise_insert (sorted : (before ++ after).Pairwise (· < ·)) (early : ∀ x ∈ before, x < e)
    (late : ∀ x ∈ after, e < x) : (before ++ e :: after).Pairwise (· < ·) := by
  obtain ⟨left, right, apart⟩ := List.pairwise_append.mp sorted
  refine List.pairwise_append.mpr ⟨left, List.pairwise_cons.mpr ⟨late, right⟩, fun x member y either => ?_⟩
  rcases List.mem_cons.mp either with rfl | later
  · exact early x member
  · exact apart x member y later

theorem le_of_getLast? {last : Event} (sorted : before.Pairwise (· < ·)) (ends : before.getLast? = some last) :
    ∀ x ∈ before, x ≤ last := by
  obtain ⟨front, rfl⟩ := List.getLast?_eq_some_iff.mp ends
  intro x member
  rcases List.mem_append.mp member with first | same
  · exact ((List.pairwise_append.mp sorted).2.2 x first last (List.mem_singleton_self last)).le
  · exact (List.mem_singleton.mp same).le

/-- The event after `e` has its time if any later one has. -/
theorem next_unique (sorted : (e :: after).Pairwise (· < ·)) :
    (∀ next ∈ after.head?, next.time ≠ e.time) ↔ e.time ∉ times after := by
  rw [mem_times]
  constructor
  · rintro other ⟨x, member, same⟩
    obtain ⟨next, rest, rfl⟩ := List.exists_cons_of_ne_nil (List.ne_nil_of_mem member)
    obtain ⟨late, order⟩ := List.pairwise_cons.mp sorted
    have low := Event.time_le_of_le (late next List.mem_cons_self).le
    have high : next.time ≤ x.time := by
      rcases List.mem_cons.mp member with rfl | later
      · exact le_rfl
      · exact Event.time_le_of_le ((List.pairwise_cons.mp order).1 x later).le
    exact other next rfl (le_antisymm (same ▸ high) low)
  · exact fun none next first same => none ⟨next, List.mem_of_mem_head? first, same⟩

/-- The event before `e` has its time if any earlier one has. -/
theorem prev_unique (sorted : before.Pairwise (· < ·)) (early : ∀ x ∈ before, x < e) :
    (∀ prev ∈ before.getLast?, prev.time ≠ e.time) ↔ e.time ∉ times before := by
  rw [mem_times]
  constructor
  · rintro other ⟨x, member, same⟩
    obtain ⟨prev, ends⟩ := Option.ne_none_iff_exists'.mp (mt List.getLast?_eq_none_iff.mp (List.ne_nil_of_mem member))
    have low := Event.time_le_of_le (le_of_getLast? sorted ends x member)
    have high := Event.time_le_of_le (early prev (List.mem_of_getLast? ends)).le
    exact other prev ends (le_antisymm high (same ▸ low))
  · exact fun none prev ends same => none ⟨prev, List.mem_of_getLast? ends, same⟩

theorem times_append (l l' : List Event) : times (l ++ l') = times l ∪ times l' := by
  ext t
  simp only [Finset.mem_union, mem_times, List.mem_append, or_and_right, exists_or]

end Rings

/-- The place of an event that is not yet in the ring `list`. -/
structure Place.Fits (e : Event) (list : List Event) (place : Place) : Prop where
  split : place.before ++ place.after = list
  early : ∀ x ∈ place.before, x < e
  late : ∀ x ∈ place.after, e < x
  unique : place.unique = true ↔ e.time ∉ times list

section Fits

variable {list before after : List Event} {place : Place}

theorem Place.Fits.insert_sorted (fits : place.Fits e list) (sorted : list.Pairwise (· < ·)) :
    (place.before ++ e :: place.after).Pairwise (· < ·) :=
  pairwise_insert (fits.split ▸ sorted) fits.early fits.late

theorem Place.Fits.mem_insert_iff (fits : place.Fits e list) (x : Event) :
    x ∈ place.before ++ e :: place.after ↔ x = e ∨ x ∈ list := by
  rw [← fits.split]
  simp only [List.mem_append, List.mem_cons]
  tauto

theorem Place.Fits.unique_eq (fits : place.Fits e list) :
    (if place.unique then 1 else 0 : ℤ) = if e.time ∈ times list then 0 else 1 := by
  by_cases present : e.time ∈ times list
  · rw [if_pos present, if_neg (mt fits.unique.mp (not_not.mpr present))]
  · rw [if_neg present, if_pos (fits.unique.mpr present)]

/-- What ends a list from which the later events have been dropped is no later event, nor is any other. -/
theorem rdropWhile_time_le (sorted : list.Pairwise (· < ·)) (t : ℚ) :
    ∀ x ∈ list.rdropWhile (t < Event.time ·), x.time ≤ t := by
  intro x member
  have some := List.ne_nil_of_mem member
  have ordered := sorted.sublist (List.rdropWhile_prefix (fun x : Event => decide (t < x.time)) (l := list)).sublist
  have stops := List.rdropWhile_last_not (fun x : Event => decide (t < x.time)) list some
  have low := le_of_getLast? ordered (List.getLast?_eq_some_getLast some) x member
  exact (Event.time_le_of_le low).trans (not_lt.mp fun later => stops (decide_eq_true later))

theorem fits_back (sorted : (before ++ after).Pairwise (· < ·)) (newest : ∀ x ∈ before ++ after, x.uid < e.uid)
    (early : ∀ x ∈ before, x.time ≤ e.time) (late : ∀ x ∈ after, e.time < x.time) (searched : ℕ) :
    Place.Fits e (before ++ after) ⟨before, after, ∀ last ∈ before.getLast?, last.time < e.time, searched⟩ := by
  have ordered := (List.pairwise_append.mp sorted).1
  have first : ∀ x ∈ before, x < e := fun x member => by
    have older := newest x (List.mem_append_left after member)
    exact lt_of_le_of_ne ((Event.le_iff_time_le older).mpr (early x member)) fun same => lt_irrefl x.uid (same ▸ older)
  refine ⟨rfl, first, fun x member => Event.lt_iff.mpr (Or.inl (late x member)), ?_⟩
  have alone := prev_unique ordered first
  have apart : e.time ∉ times after := fun member => by
    obtain ⟨x, here, same⟩ := mem_times.mp member
    exact (late x here).ne' same
  rw [decide_eq_true_iff, times_append, Finset.mem_union, not_or, ← alone, and_iff_left apart]
  refine forall₂_congr fun last ends => ?_
  exact ⟨fun below => below.ne, fun other => lt_of_le_of_ne (early last (List.mem_of_getLast? ends)) other⟩

/-- Behind all events of its time is where the newest event goes. -/
theorem findBack_fits (sorted : list.Pairwise (· < ·)) (newest : ∀ x ∈ list, x.uid < e.uid) :
    (findBack e list).Fits e list := by
  cases list with
  | nil =>
    exact fits_back (show ([] ++ [] : List Event).Pairwise (· < ·) from .nil) newest
      (fun x member => absurd member List.not_mem_nil) (fun x member => absurd member List.not_mem_nil) 0
  | cons head rest =>
    rw [findBack]
    split_ifs with first
    · refine fits_back (show ([] ++ head :: rest).Pairwise (· < ·) from sorted) newest (fun x member => absurd member List.not_mem_nil) (fun x member => ?_) 1
      rcases List.mem_cons.mp member with rfl | later
      · exact first
      · exact first.trans_le (Event.time_le_of_le ((List.pairwise_cons.mp sorted).1 x later).le)
    · have split : (head :: rest).rdropWhile (e.time < ·.time) ++ (head :: rest).rtakeWhile (e.time < ·.time) = head :: rest :=
        List.rdropWhile_append_rtakeWhile
      have fits := fits_back (split.symm ▸ sorted) (split.symm ▸ newest) (rdropWhile_time_le sorted e.time) (fun x member =>
        of_decide_eq_true (List.mem_rtakeWhile_imp (p := fun x : Event => decide (e.time < x.time)) member))
        (1 + ((head :: rest).rtakeWhile (e.time < ·.time)).length)
      rwa [split] at fits

theorem le_dropWhile_time (sorted : list.Pairwise (· < ·)) (t : ℚ) :
    ∀ x ∈ list.dropWhile (Event.time · < t), t ≤ x.time := by
  intro x member
  have stops := List.head?_dropWhile_not (fun x : Event => decide (x.time < t)) list
  have ordered := sorted.sublist (List.dropWhile_sublist fun x : Event => decide (x.time < t))
  obtain ⟨first, rest, found⟩ := List.exists_cons_of_ne_nil (List.ne_nil_of_mem member)
  rw [found] at stops ordered member
  have low := not_lt.mp (of_decide_eq_false stops)
  rcases List.mem_cons.mp member with rfl | later
  · exact low
  · exact low.trans (Event.time_le_of_le ((List.pairwise_cons.mp ordered).1 x later).le)

theorem fits_front (sorted : (before ++ after).Pairwise (· < ·)) (oldest : ∀ x ∈ before ++ after, x.time = e.time → e < x)
    (early : ∀ x ∈ before, x.time < e.time) (late : ∀ x ∈ after, e.time ≤ x.time) :
    (frontPlace e before after).Fits e (before ++ after) := by
  have second : ∀ x ∈ after, e < x := fun x member => by
    rcases (late x member).eq_or_lt with same | later
    · exact oldest x (List.mem_append_right before member) same.symm
    · exact Event.lt_iff.mpr (Or.inl later)
  refine ⟨rfl, fun x member => Event.lt_iff.mpr (Or.inl (early x member)), second, ?_⟩
  have alone := next_unique (List.pairwise_cons.mpr ⟨second, (List.pairwise_append.mp sorted).2.1⟩)
  have apart : e.time ∉ times before := fun member => by
    obtain ⟨x, here, same⟩ := mem_times.mp member
    exact (early x here).ne same
  rw [frontPlace, decide_eq_true_iff, times_append, Finset.mem_union, not_or, ← alone, and_iff_right apart]
  cases after with
  | nil =>
    refine iff_of_true (fun next first => (early next ?_).ne) fun next first => absurd first (Option.not_mem_none next)
    exact List.mem_of_mem_head? first
  | cons a after => rfl

/-- Before all events of its time is where an event goes that is older than these. -/
theorem findFront_fits (sorted : list.Pairwise (· < ·)) (oldest : ∀ x ∈ list, x.time = e.time → e < x) :
    (findFront e list).Fits e list := by
  cases list with
  | nil =>
    exact fits_front (show ([] ++ [] : List Event).Pairwise (· < ·) from .nil) oldest
      (fun x member => absurd member List.not_mem_nil) fun x member => absurd member List.not_mem_nil
  | cons head rest =>
    rw [findFront]
    split_ifs with atTail
    · have whole : head :: rest ++ [] = head :: rest := List.append_nil _
      have fits := fits_front (whole.symm ▸ sorted) (whole.symm ▸ oldest) (fun x member => ?_)
        fun x member => absurd member List.not_mem_nil
      · rwa [whole] at fits
      · have ends := List.getLast?_eq_some_getLast (List.cons_ne_nil head rest)
        exact (Event.time_le_of_le (le_of_getLast? sorted ends x member)).trans_lt (atTail _ ends)
    · have split : (head :: rest).takeWhile (·.time < e.time) ++ (head :: rest).dropWhile (·.time < e.time) = head :: rest :=
        List.takeWhile_append_dropWhile
      have fits := fits_front (split.symm ▸ sorted) (split.symm ▸ oldest) (fun x member =>
        of_decide_eq_true (List.mem_takeWhile_imp (p := fun x : Event => decide (x.time < e.time)) member))
        (le_dropWhile_time sorted e.time)
      rwa [split] at fits

end Fits

/-- The place of a queued event is between the earlier and the later ones. -/
theorem findEvent_spec {list : List Event} (sorted : list.Pairwise (· < ·)) (member : e ∈ list) :
    (findEvent e list).before ++ (findEvent e list).after = list.erase e ∧
      ((findEvent e list).unique = true ↔ e.time ∉ times ((findEvent e list).before ++ (findEvent e list).after)) := by
  obtain ⟨before, after, rfl⟩ := List.append_of_mem member
  obtain ⟨ordered, later, apart⟩ := List.pairwise_append.mp sorted
  have early : ∀ x ∈ before, x < e := fun x member => apart x member e List.mem_cons_self
  have others : ∀ x ∈ before, decide (x ≠ e) = true := fun x member => decide_eq_true (early x member).ne
  have first : (before ++ e :: after).takeWhile (· ≠ e) = before := by
    rw [List.takeWhile_append_of_pos others, List.takeWhile_cons_of_neg (by simp), List.append_nil]
  have second : (before ++ e :: after).dropWhile (· ≠ e) = e :: after := by
    rw [List.dropWhile_append_of_pos others, List.dropWhile_cons_of_neg (by simp)]
  have absent : e ∉ before := fun member => lt_irrefl e (early e member)
  have rest : (before ++ e :: after).erase e = before ++ after := by
    rw [List.erase_append_right _ absent, List.erase_cons_head]
  rw [findEvent, first, second, rest, List.tail_cons]
  refine ⟨rfl, ?_⟩
  rw [decide_eq_true_iff, times_append, Finset.mem_union, not_or]
  constructor
  · rintro ⟨next, prev⟩
    refine ⟨(prev_unique ordered early).mp fun last ends => prev last ?_, (next_unique later).mp fun first begins => next first ?_⟩
    · rw [List.getLast?_append, Option.mem_def.mp ends]
      rfl
    · rw [List.head?_append, Option.mem_def.mp begins]
      rfl
  · rintro ⟨left, right⟩
    have alone : ∀ x ∈ after ++ before, x.time ≠ e.time := fun x member same => by
      rcases List.mem_append.mp member with late | soon
      · exact right (mem_times.mpr ⟨x, late, same⟩)
      · exact left (mem_times.mpr ⟨x, soon, same⟩)
    exact ⟨fun next first => alone next (List.mem_of_mem_head? first), fun prev ends => alone prev (List.mem_of_getLast? ends)⟩

/-- An event is put on the ring of its bucket. -/
theorem Stores.put {place : Place} (stores : s.Stores l)
    (fits : place.Fits e (s.buckets (day s.width e % s.nbuckets)).list) :
    (s.setBucket (day s.width e % s.nbuckets) (place.before ++ e :: place.after) (if place.unique then 1 else 0) 1).Stores
      (e :: l) where
  files := by
    rw [setBucket_lists]
    exact stores.files.insert (fits.insert_sorted (stores.files.sorted _)) fits.mem_insert_iff
  counted := by
    refine setBucket_counted stores 1 ?_
    rw [fits.unique_eq, ← card_insert_time, ← times_cons]
    exact congrArg (fun present => (Finset.card present : ℤ)) <| times_congr fun x => by
      rw [List.mem_cons, fits.mem_insert_iff]
  priorities := by
    rw [setBucket, stores.priorities, fits.unique_eq, times_cons, card_insert_time]
    simp only [stores.time_mem_iff]
  size := by
    rw [setBucket, stores.size, List.length_cons]
    rfl

/-- An event is taken off the ring of its bucket. -/
theorem Stores.take (stores : s.Stores l) (list : List Event) (unique : Bool) (distinct : l.Nodup) (member : e ∈ l)
    (rest : list = (s.buckets (day s.width e % s.nbuckets)).list.erase e)
    (alone : unique = true ↔ e.time ∉ times list) :
    (s.setBucket (day s.width e % s.nbuckets) list (if unique then -1 else 0) (-1)).Stores (l.erase e) := by
  have files := stores.files.erase distinct e
  rw [← rest] at files
  have inside := (stores.files.member _ e).mpr ⟨member, rfl⟩
  have again : e.time ∈ times list ↔ e.time ∈ times (l.erase e) := by
    rw [mem_times, mem_times]
    have here := files.member (day s.width e % s.nbuckets)
    rw [Function.update_self] at here
    constructor
    · rintro ⟨x, inside, same⟩
      exact ⟨x, ((here x).mp inside).1, same⟩
    · rintro ⟨x, inside, same⟩
      exact ⟨x, (here x).mpr ⟨inside, by rw [day, same, day]⟩, same⟩
  have change : (if unique then -1 else 0 : ℤ) = -(if e.time ∈ times list then 0 else 1) := by
    by_cases present : e.time ∈ times list
    · rw [if_pos present, if_neg (mt alone.mp (not_not.mpr present)), neg_zero]
    · rw [if_neg present, if_pos (alone.mpr present)]
  refine ⟨?_, setBucket_counted stores (-1) ?_, ?_, ?_⟩
  · rw [setBucket_lists]
    exact files
  · rw [times_congr fun x => (List.perm_cons_erase inside).mem_iff, ← rest, times_cons, card_insert_time, change,
      add_neg_cancel_right]
  · rw [setBucket, stores.priorities, times_congr fun x => (List.perm_cons_erase member).mem_iff, times_cons,
      card_insert_time, change]
    simp only [again, add_neg_cancel_right]
  · have length := (List.perm_cons_erase member).length_eq
    rw [List.length_cons] at length
    rw [setBucket, stores.size, length]
    simp

section Operations

theorem Stores.congr {s' : CalendarScheduler} (stores : s.Stores l) (width : s'.width = s.width)
    (nbuckets : s'.nbuckets = s.nbuckets) (buckets : s'.buckets = s.buckets) (priorities : s'.statQsize = s.statQsize)
    (size : s'.qsize = s.qsize) : s'.Stores l :=
  ⟨by rw [width, nbuckets, buckets]; exact stores.files, by rw [buckets]; exact stores.counted,
    priorities.trans stores.priorities, size.trans stores.size⟩

theorem link_stores (stores : s.Stores l) (positive : 0 < s.width) (some : 0 < s.nbuckets) (nonneg : 0 ≤ e.time)
    (newest : ∀ x ∈ l, x.uid < e.uid) : (s.link e).Stores (e :: l) := by
  have fits := findBack_fits (stores.files.sorted (day s.width e % s.nbuckets)) fun x member =>
    newest x ((stores.files.member _ x).mp member).1
  rw [link, hash_time nonneg positive some]
  exact (stores.put fits).congr rfl rfl rfl rfl rfl

theorem insert2_stores (stores : s.Stores l) (positive : 0 < s.width) (some : 0 < s.nbuckets) (nonneg : 0 ≤ e.time)
    (oldest : ∀ x ∈ l, x.time = e.time → e < x) : (s.insert2 e).Stores (e :: l) := by
  have fits := findFront_fits (stores.files.sorted (day s.width e % s.nbuckets)) fun x member =>
    oldest x ((stores.files.member _ x).mp member).1
  rw [insert2, hash_time nonneg positive some]
  exact stores.put fits

/-- The shape of the calendar and the place where `head` begins. -/
structure Grid (s : CalendarScheduler) : Prop where
  positive : 0 < s.width
  four_le : 4 ≤ s.nbuckets
  diff0 : s.diff0 = s.width * s.nbuckets / 2
  diff1 : s.diff1 = s.width * s.nbuckets / 2 + s.width
  diff2 : s.diff2 = s.width * s.nbuckets
  nonneg : 0 ≤ s.calClock
  lastbucket : s.lastbucket = s.hash s.calClock

theorem Grid.some (grid : s.Grid) : 0 < s.nbuckets := (by decide : 0 < 4).trans_le grid.four_le

theorem Grid.setBucket (grid : s.Grid) (i : ℕ) (list : List Event) (priorities events : ℤ) :
    (s.setBucket i list priorities events).Grid :=
  ⟨grid.positive, grid.four_le, grid.diff0, grid.diff1, grid.diff2, grid.nonneg, grid.lastbucket⟩

theorem link_grid (grid : s.Grid) (e : Event) : (s.link e).Grid :=
  ⟨grid.positive, grid.four_le, grid.diff0, grid.diff1, grid.diff2, grid.nonneg, grid.lastbucket⟩

theorem insert2_grid (grid : s.Grid) (e : Event) : (s.insert2 e).Grid := grid.setBucket _ _ _ _

/-- No assertion of `cancel` fails for a queued event. -/
theorem cancel_spec (stores : s.Stores l) (grid : s.Grid) (distinct : l.Nodup) (nonneg : 0 ≤ e.time) (member : e ∈ l)
    (queued : 0 < e.uid) :
    ∃ next, s.cancel e = Option.some next ∧ next.Stores (l.erase e) ∧ next.Grid ∧ next.calClock = s.calClock := by
  have inside := (stores.files.member (day s.width e % s.nbuckets) e).mpr ⟨member, rfl⟩
  obtain ⟨rest, alone⟩ := findEvent_spec (stores.files.sorted (day s.width e % s.nbuckets)) inside
  have taken := stores.take _ _ distinct member rest alone
  rw [cancel, if_neg (not_le.mpr queued)]
  simp only
  rw [hash_time nonneg grid.positive grid.some, if_pos inside]
  generalize (findEvent e (s.buckets (day s.width e % s.nbuckets)).list).unique = unique at taken ⊢
  generalize (findEvent e (s.buckets (day s.width e % s.nbuckets)).list).before ++
    (findEvent e (s.buckets (day s.width e % s.nbuckets)).list).after = list at taken ⊢
  have counted := taken.counted (day s.width e % s.nbuckets)
  rw [if_neg, if_neg]
  · exact ⟨_, rfl, taken, grid.setBucket _ _ _ _, rfl⟩
  · rw [counted]
    rintro ⟨zero, some⟩
    obtain ⟨x, list, found⟩ := List.exists_cons_of_ne_nil some
    rw [found, times_cons] at zero
    exact Finset.insert_ne_empty _ _ (Finset.card_eq_zero.mp (Int.natCast_eq_zero.mp zero))
  · rintro ⟨_, negative | negative⟩
    · rw [taken.priorities] at negative
      omega
    · rw [counted] at negative
      omega

theorem unlinkHead_spec (stores : s.Stores l) (grid : s.Grid) (distinct : l.Nodup)
    (first : (s.buckets s.lastbucket).list.head? = some e) :
    ∃ next, s.unlinkHead e = Option.some next ∧ next.Stores (l.erase e) ∧ next.Grid ∧ next.calClock = s.calClock := by
  obtain ⟨rest, ring⟩ := List.head?_eq_some_iff.mp first
  obtain ⟨member, place⟩ := stores.files.head_mem first
  have sorted : (s.buckets s.lastbucket).list.Pairwise (· < ·) := stores.files.sorted s.lastbucket
  rw [ring] at sorted
  have taken := stores.take rest (∀ next ∈ rest.head?, next.time ≠ e.time) distinct member
    (by rw [place, ring, List.erase_cons_head]) (by rw [decide_eq_true_iff, next_unique sorted])
  rw [place] at taken
  rw [unlinkHead, ring]
  exact ⟨_, if_pos rfl, taken, grid.setBucket _ _ _ _, rfl⟩

/-- Inserting at the front keeps an order in which later events of one time come first. -/
theorem foldl_insert2_spec {done todo : List Event} (stores : s.Stores done) (grid : s.Grid)
    (nonneg : ∀ x ∈ todo, 0 ≤ x.time)
    (order : (done.reverse ++ todo).Pairwise fun x y => x.time = y.time → y < x) :
    (todo.foldl insert2 s).Stores (todo.reverse ++ done) ∧ (todo.foldl insert2 s).Grid ∧
      (todo.foldl insert2 s).calClock = s.calClock := by
  induction todo generalizing s done with
  | nil => exact ⟨stores, grid, rfl⟩
  | cons e todo ih =>
    have older := (List.pairwise_append.mp order).2.2
    have stores' := insert2_stores stores grid.positive grid.some (nonneg e List.mem_cons_self) fun x member =>
      older x (List.mem_reverse.mpr member) e List.mem_cons_self
    rw [List.append_cons, ← List.reverse_cons] at order
    rw [List.foldl_cons, List.reverse_cons, List.append_assoc]
    exact ih stores' (insert2_grid grid e) (fun x member => nonneg x (List.mem_cons_of_mem e member)) order

theorem reinit_spec (s : CalendarScheduler) {nbuck : ℕ} {bwidth : ℚ} (four_le : 4 ≤ nbuck) (positive : 0 < bwidth)
    (nonneg : 0 ≤ s.calClock) :
    (s.reinit nbuck bwidth s.calClock).Stores [] ∧ (s.reinit nbuck bwidth s.calClock).Grid :=
  ⟨⟨Calendar.Files.nil _ _, fun _ => rfl, rfl, rfl⟩, positive, four_le, rfl, rfl, rfl, nonneg, rfl⟩

/-- A resize moves all events, and keeps their order. -/
theorem rehash_spec (stores : s.Stores l) (grid : s.Grid) (distinct : l.Nodup) (nonneg : ∀ x ∈ l, 0 ≤ x.time)
    {newsize : ℕ} {bwidth : ℚ} (four_le : 4 ≤ newsize) (positive : 0 < bwidth) :
    (s.rehash newsize bwidth s.calClock).Stores l ∧ (s.rehash newsize bwidth s.calClock).Grid ∧
      (s.rehash newsize bwidth s.calClock).calClock = s.calClock := by
  have listed := stores.files.pages_perm distinct grid.some
  have order : (Calendar.pages (fun i => (s.buckets i).list) s.nbuckets).Pairwise fun x y => x.time = y.time → y < x :=
    stores.files.pages_pairwise.imp fun before same => before (by rw [day, same, day])
  obtain ⟨empty, fresh⟩ := s.reinit_spec four_le positive grid.nonneg
  obtain ⟨stores', grid', clock⟩ := foldl_insert2_spec empty fresh
    (fun x member => nonneg x (listed.mem_iff.mp member)) order
  rw [List.append_nil] at stores'
  refine ⟨(stores'.perm ((List.reverse_perm _).trans listed)).congr rfl rfl rfl rfl rfl, ?_, clock⟩
  exact ⟨grid'.positive, grid'.four_le, grid'.diff0, grid'.diff1, grid'.diff2, grid'.nonneg, grid'.lastbucket⟩

theorem newwidth_spec (stores : s.Stores l) (grid : s.Grid) :
    s.newwidth.Stores l ∧ s.newwidth.Grid ∧ s.newwidth.calClock = s.calClock := by
  rw [newwidth]
  split_ifs
  · exact ⟨stores.congr rfl rfl rfl rfl rfl,
      ⟨grid.positive, grid.four_le, grid.diff0, grid.diff1, grid.diff2, grid.nonneg, grid.lastbucket⟩, rfl⟩
  · exact ⟨stores, grid, rfl⟩

theorem resize_spec (stores : s.Stores l) (grid : s.Grid) (distinct : l.Nodup) (nonneg : ∀ x ∈ l, 0 ≤ x.time)
    (newsize : ℕ) (w : Widths) :
    (s.resize newsize s.calClock w).Stores l ∧ (s.resize newsize s.calClock w).Grid ∧
      (s.resize newsize s.calClock w).calClock = s.calClock := by
  obtain ⟨stores', grid', clock⟩ := newwidth_spec stores grid
  have again : ∀ n, 4 ≤ n → (s.newwidth.rehash n w.sampled s.calClock).Stores l ∧
      (s.newwidth.rehash n w.sampled s.calClock).Grid ∧ (s.newwidth.rehash n w.sampled s.calClock).calClock = s.calClock := by
    intro n four_le
    rw [← clock]
    exact rehash_spec stores' grid' distinct nonneg four_le w.sampled.2
  rw [resize]
  split_ifs with same narrow patient small
  · exact ⟨stores.congr rfl rfl rfl rfl rfl,
      ⟨grid.positive, grid.four_le, grid.diff0, grid.diff1, grid.diff2, grid.nonneg, grid.lastbucket⟩, rfl⟩
  · exact again newsize (same ▸ grid.four_le)
  · exact rehash_spec stores grid distinct nonneg (same ▸ grid.four_le) w.rescaled.2
  · exact again 4 le_rfl
  · exact again newsize (not_lt.mp small)

end Operations

end CalendarScheduler

end Ns2
