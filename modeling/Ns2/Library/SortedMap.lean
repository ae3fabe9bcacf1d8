import Mathlib.Data.List.Pairwise
import Mathlib.Order.Lattice

universe u v

/-- A table of entries in the order of their keys. -/
structure SortedMap (κ : Type u) (τ : Type v) [LinearOrder κ] where
  entries : List (κ × τ)
  sorted : entries.Pairwise fun a b => a.1 < b.1
deriving DecidableEq

namespace SortedMap

variable {κ : Type u} {τ : Type v} [LinearOrder κ] {m : SortedMap κ τ} {k j : κ} {t : τ}

def place (k : κ) (t : τ) : List (κ × τ) → List (κ × τ)
  | [] => [(k, t)]
  | e :: es => if k < e.1 then (k, t) :: e :: es else if k = e.1 then (k, t) :: es else e :: place k t es

theorem mem_place {es : List (κ × τ)} {e : κ × τ} (member : e ∈ place k t es) : e = (k, t) ∨ e ∈ es := by
  induction es with
  | nil => exact Or.inl (List.mem_singleton.mp member)
  | cons f es ih =>
    unfold place at member
    split_ifs at member
    · exact List.mem_cons.mp member
    · exact (List.mem_cons.mp member).imp_right (List.mem_cons_of_mem f)
    · rcases List.mem_cons.mp member with rfl | later
      · exact Or.inr List.mem_cons_self
      · exact (ih later).imp_right (List.mem_cons_of_mem f)

theorem place_sorted {es : List (κ × τ)} (sorted : es.Pairwise fun a b => a.1 < b.1) :
    (place k t es).Pairwise fun a b => a.1 < b.1 := by
  induction es with
  | nil => exact List.pairwise_singleton _ _
  | cons e es ih =>
    obtain ⟨first, rest⟩ := List.pairwise_cons.mp sorted
    unfold place
    split_ifs with before same
    · refine List.pairwise_cons.mpr ⟨fun f member => ?_, sorted⟩
      rcases List.mem_cons.mp member with rfl | later
      · exact before
      · exact before.trans (first f later)
    · exact List.pairwise_cons.mpr ⟨fun f member => same ▸ first f member, rest⟩
    · refine List.pairwise_cons.mpr ⟨fun f member => ?_, ih rest⟩
      rcases mem_place member with rfl | later
      · exact lt_of_le_of_ne (not_lt.mp before) (Ne.symm same)
      · exact first f later

def empty : SortedMap κ τ := ⟨[], List.Pairwise.nil⟩

def find (m : SortedMap κ τ) (k : κ) : Option τ := m.entries.lookup k

/-- The entry of the key is made or overwritten. -/
def set (m : SortedMap κ τ) (k : κ) (t : τ) : SortedMap κ τ := ⟨place k t m.entries, place_sorted m.sorted⟩

/-- An entry that is there stays as it is. -/
def insert (m : SortedMap κ τ) (k : κ) (t : τ) : SortedMap κ τ := if (m.find k).isSome then m else m.set k t

def erase (m : SortedMap κ τ) (k : κ) : SortedMap κ τ := ⟨m.entries.filter fun e => e.1 ≠ k, m.sorted.filter _⟩

@[simp]
theorem lookup_cons (e : κ × τ) (es : List (κ × τ)) : (e :: es).lookup j = if j = e.1 then some e.2 else es.lookup j := by
  change (match j == e.1 with | true => some e.2 | false => es.lookup j) = _
  by_cases same : j = e.1
  · rw [if_pos same, beq_iff_eq.mpr same]
  · rw [if_neg same, beq_eq_false_iff_ne.mpr same]

theorem lookup_place (es : List (κ × τ)) : (place k t es).lookup j = if j = k then some t else es.lookup j := by
  induction es with
  | nil => exact lookup_cons (k, t) []
  | cons e es ih =>
    unfold place
    by_cases before : k < e.1
    · rw [if_pos before, lookup_cons]
    · rw [if_neg before]
      by_cases same : k = e.1
      · rw [if_pos same, lookup_cons, lookup_cons, same]
        split_ifs <;> rfl
      · rw [if_neg same, lookup_cons, lookup_cons, ih]
        by_cases own : j = k
        · rw [if_pos own, if_neg (own ▸ same)]
          exact (if_pos own).symm
        · rw [if_neg own, if_neg own]

@[simp]
theorem find_set : (m.set k t).find j = if j = k then some t else m.find j := lookup_place m.entries

theorem find_insert : (m.insert k t).find j = if j = k then some ((m.find k).getD t) else m.find j := by
  unfold insert
  cases there : m.find k with
  | none => exact find_set
  | some old =>
    rw [Option.isSome_some, if_pos rfl]
    split_ifs with own
    · rw [own, there]
      rfl
    · rfl

theorem lookup_filter (es : List (κ × τ)) : (es.filter fun e => e.1 ≠ k).lookup j = if j = k then none else es.lookup j := by
  induction es with
  | nil => exact (ite_self none).symm
  | cons e es ih =>
    rw [List.filter_cons, lookup_cons]
    by_cases same : e.1 = k
    · rw [if_neg (by simpa using same), ih, same]
      split_ifs <;> rfl
    · rw [if_pos (by simpa using same), lookup_cons, ih]
      split_ifs with own gone
      · exact absurd (own.symm.trans gone) same
      · rfl
      · rfl
      · rfl

@[simp]
theorem find_erase : (m.erase k).find j = if j = k then none else m.find j := lookup_filter m.entries

theorem mem_lookup {es : List (κ × τ)} (sorted : es.Pairwise fun a b => a.1 < b.1) : (k, t) ∈ es ↔ es.lookup k = some t := by
  induction es with
  | nil => exact ⟨nofun, nofun⟩
  | cons e es ih =>
    obtain ⟨first, rest⟩ := List.pairwise_cons.mp sorted
    rw [List.mem_cons, lookup_cons, ih rest]
    split_ifs with own
    · refine ⟨fun place => place.elim (fun same => by rw [← same]) fun later => ?_, fun same => Or.inl ?_⟩
      · exact absurd own (first (k, t) ((ih rest).mpr later)).ne'
      · exact Prod.ext own (Option.some.inj same).symm
    · exact ⟨fun place => place.resolve_left fun same => own (by rw [← same]), Or.inr⟩

theorem mem_entries : (k, t) ∈ m.entries ↔ m.find k = some t := mem_lookup m.sorted

theorem entries_nil : m.entries = [] ↔ ∀ k, m.find k = none := by
  refine ⟨fun none k => by rw [find, none]; rfl, fun none => List.eq_nil_iff_forall_not_mem.mpr fun e member => ?_⟩
  exact absurd (none e.1) (by rw [mem_entries.mp member]; exact Option.some_ne_none _)

end SortedMap
