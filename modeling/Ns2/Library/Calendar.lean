import Mathlib.Data.List.Perm.Basic
import Mathlib.Order.Monotone.Basic
import Mathlib.Order.Lattice

universe u

/-! A calendar of `n` pages: what is due on a day stands on the page with the day's number modulo `n`. -/

namespace Calendar

variable {α : Type u} [LinearOrder α] {day : α → ℕ} {n : ℕ} {page page' : ℕ → List α} {l l' : List α} {e : α}

/-- The pages hold, each in order, exactly the elements of `l`. -/
structure Files (day : α → ℕ) (n : ℕ) (page : ℕ → List α) (l : List α) : Prop where
  sorted : ∀ i, (page i).Pairwise (· < ·)
  member : ∀ i x, x ∈ page i ↔ x ∈ l ∧ day x % n = i

theorem Files.nil (day : α → ℕ) (n : ℕ) : Files day n (fun _ => []) [] :=
  ⟨fun _ => .nil, fun _ _ => ⟨fun member => absurd member List.not_mem_nil, fun both => absurd both.1 List.not_mem_nil⟩⟩

theorem Files.congr (files : Files day n page l) (same : ∀ x, x ∈ l ↔ x ∈ l') : Files day n page l' :=
  ⟨files.sorted, fun i x => (files.member i x).trans (and_congr_left' (same x))⟩

/-- One page is exchanged for another. -/
theorem Files.update (files : Files day n page l) {i : ℕ} {list : List α} (sorted : list.Pairwise (· < ·))
    (member : ∀ x, x ∈ list ↔ x ∈ l' ∧ day x % n = i) (others : ∀ x, day x % n ≠ i → (x ∈ l' ↔ x ∈ l)) :
    Files day n (Function.update page i list) l' where
  sorted j := by
    by_cases same : j = i
    · rw [same, Function.update_self]
      exact sorted
    · rw [Function.update_of_ne same]
      exact files.sorted j
  member j x := by
    by_cases same : j = i
    · rw [same, Function.update_self]
      exact member x
    · rw [Function.update_of_ne same, files.member j x]
      refine and_congr_left fun here => ?_
      exact (others x (here ▸ same)).symm

theorem Files.insert (files : Files day n page l) {list : List α} (sorted : list.Pairwise (· < ·))
    (member : ∀ x, x ∈ list ↔ x = e ∨ x ∈ page (day e % n)) :
    Files day n (Function.update page (day e % n) list) (e :: l) := by
  refine files.update sorted (fun x => ?_) fun x elsewhere => ?_
  · rw [member, files.member, List.mem_cons, or_and_right]
    exact or_congr_left ⟨fun same => ⟨same, same ▸ rfl⟩, And.left⟩
  · rw [List.mem_cons]
    exact or_iff_right fun same => elsewhere (same ▸ rfl)

theorem Files.erase [BEq α] [LawfulBEq α] (files : Files day n page l) (distinct : l.Nodup) (e : α) :
    Files day n (Function.update page (day e % n) ((page (day e % n)).erase e)) (l.erase e) := by
  refine files.update ((files.sorted _).sublist List.erase_sublist) (fun x => ?_) fun x elsewhere => ?_
  · have distinct' : (page (day e % n)).Nodup := (files.sorted _).imp ne_of_lt
    rw [distinct'.mem_erase_iff, distinct.mem_erase_iff, files.member, and_assoc]
  · rw [distinct.mem_erase_iff]
    exact and_iff_right fun same => elsewhere (same ▸ rfl)

theorem Files.head_le (files : Files day n page l) {i : ℕ} (first : (page i).head? = some e) :
    ∀ x ∈ l, day x % n = i → e ≤ x := by
  intro x member here
  obtain ⟨rest, split⟩ := List.head?_eq_some_iff.mp first
  have inside := (files.member i x).mpr ⟨member, here⟩
  have sorted := files.sorted i
  rw [split] at inside sorted
  rcases List.mem_cons.mp inside with rfl | later
  · exact le_rfl
  · exact ((List.pairwise_cons.mp sorted).1 x later).le

theorem Files.head_mem (files : Files day n page l) {i : ℕ} (first : (page i).head? = some e) :
    e ∈ l ∧ day e % n = i := (files.member i e).mp (List.mem_of_mem_head? first)

/-- The least element is the first of its page. -/
theorem Files.head_of_least (files : Files day n page l) (member : e ∈ l) (least : ∀ x ∈ l, e ≤ x) :
    (page (day e % n)).head? = some e := by
  have inside := (files.member (day e % n) e).mpr ⟨member, rfl⟩
  obtain ⟨first, rest, found⟩ := List.exists_cons_of_ne_nil (List.ne_nil_of_mem inside)
  have begins : (page (day e % n)).head? = some first := by rw [found, List.head?_cons]
  have low := files.head_le begins e member rfl
  rw [begins, le_antisymm low (least first (files.head_mem begins).1)]

/-- On a page that is due, what is first is of that day or of one a whole number of years later. -/
theorem Files.head_day (files : Files day n page l) {k : ℕ} (due : ∀ x ∈ l, k ≤ day x)
    (first : (page (k % n)).head? = some e) (other : day e ≠ k) : k + n ≤ day e := by
  obtain ⟨member, here⟩ := files.head_mem first
  have later : k ≤ day e := due e member
  have apart : (day e - k) % n = 0 := Nat.sub_mod_eq_zero_of_mod_eq here
  have whole : n ≤ day e - k := Nat.le_of_dvd (by omega) (Nat.dvd_of_mod_eq_zero apart)
  omega

/-- The first element that is due today is the least of all. -/
theorem Files.least (files : Files day n page l) (monotone : Monotone day) {k : ℕ} (due : ∀ x ∈ l, k ≤ day x)
    (first : (page (k % n)).head? = some e) (today : day e = k) : ∀ x ∈ l, e ≤ x := by
  intro x member
  rcases (due x member).eq_or_lt with same | later
  · exact files.head_le first x member (same ▸ rfl)
  · by_contra below
    have earlier := monotone (not_le.mp below).le
    omega

/-- If nothing is due today, everything is due tomorrow. -/
theorem Files.tomorrow (files : Files day n page l) (monotone : Monotone day) {k : ℕ} (due : ∀ x ∈ l, k ≤ day x)
    (nothing : ∀ e ∈ (page (k % n)).head?, day e ≠ k) : ∀ x ∈ l, k + 1 ≤ day x := by
  intro x member
  refine Nat.lt_of_le_of_ne (due x member) fun today => ?_
  have inside := (files.member (k % n) x).mpr ⟨member, today ▸ rfl⟩
  cases found : (page (k % n)).head? with
  | none =>
    rw [List.head?_eq_none_iff.mp found] at inside
    exact List.not_mem_nil inside
  | some e =>
    have first := monotone (files.head_le found x member (today ▸ rfl))
    have later := due e (files.head_mem found).1
    exact nothing e found (by omega)

/-- The pages one after the other. -/
def pages (page : ℕ → List α) (n : ℕ) : List α := (List.range n).flatMap fun i => (page i).reverse

theorem Files.mem_pages (files : Files day n page l) (some : 0 < n) (x : α) : x ∈ pages page n ↔ x ∈ l := by
  simp only [pages, List.mem_flatMap, List.mem_range, List.mem_reverse, files.member]
  exact ⟨fun ⟨_, _, member, _⟩ => member, fun member => ⟨_, Nat.mod_lt _ some, member, rfl⟩⟩

/-- From the last page's first element on, what is on one page comes later element first. -/
theorem Files.pages_pairwise (files : Files day n page l) :
    (pages page n).Pairwise fun x y => day x % n = day y % n → y < x := by
  refine List.pairwise_flatMap.mpr ⟨fun i _ => ?_, ?_⟩
  · exact (List.pairwise_reverse.mpr (files.sorted i)).imp fun before => fun _ => before
  · refine List.nodup_range.imp fun apart x left y right same => ?_
    have first := ((files.member _ x).mp (List.mem_reverse.mp left)).2
    have second := ((files.member _ y).mp (List.mem_reverse.mp right)).2
    exact absurd (first.symm.trans (same.trans second)) apart

theorem Files.pages_nodup (files : Files day n page l) : (pages page n).Nodup :=
  files.pages_pairwise.imp fun later => by
    rintro rfl
    exact lt_irrefl _ (later rfl)

theorem Files.pages_perm (files : Files day n page l) (distinct : l.Nodup) (some : 0 < n) : (pages page n).Perm l :=
  (List.perm_ext_iff_of_nodup files.pages_nodup distinct).mpr (files.mem_pages some)

end Calendar
