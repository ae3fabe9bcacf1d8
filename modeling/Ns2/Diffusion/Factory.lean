import Ns2.Library.Machine
import Ns2.Library.NextChain
import Mathlib.Data.Int.Notation
import Mathlib.Data.List.Induction
import Mathlib.Tactic.Common

namespace Ns2

structure NRAttributeFactory where
  key : BitVec 16
  type : BitVec 8
  next : Option ℕ
deriving DecidableEq

/-- The factories by their addresses, of which `count` have been used, and `first_`. -/
structure FactoryRegistry where
  heap : ℕ → NRAttributeFactory
  count : ℕ
  first : Option ℕ

namespace FactoryRegistry

/-- The key and the type that a factory is constructed with. -/
abbrev Made := ℤ × ℤ

def factory (made : Made) : NRAttributeFactory := ⟨BitVec.ofInt 16 made.1, BitVec.ofInt 8 made.2, none⟩

/-- How the walk of `verify_unique` ends. -/
inductive Found
  | identical (i : ℕ)
  | missing (last : Option ℕ)

/-- The loop of `verify_unique`, for at most so many rounds. -/
def walk (s : FactoryRegistry) (key : BitVec 16) : ℕ → Option ℕ → Option ℕ → Option Found
  | 0, _, _ => none
  | _ + 1, none, previous => some (.missing previous)
  | rounds + 1, some i, _ =>
    if key = (s.heap i).key then some (.identical i) else s.walk key rounds (s.heap i).next (some i)

/-- What is linked when the key is not found. -/
def enlist (s : FactoryRegistry) (baby : ℕ) (last : Option ℕ) : FactoryRegistry :=
  let heap := (last.map fun i => Function.update s.heap i { s.heap i with next := s.first }).getD s.heap
  { s with heap, first := some baby }

/-- `none` is a failed assertion. -/
def verifyUnique (s : FactoryRegistry) (baby : ℕ) : Found → Option FactoryRegistry
  | .identical i => if (s.heap baby).type = (s.heap i).type then some s else none
  | .missing last => some (s.enlist baby last)

/-- The new object, which is not in the list yet. -/
def allocate (s : FactoryRegistry) (made : Made) : FactoryRegistry :=
  { s with heap := Function.update s.heap s.count (factory made), count := s.count + 1 }

/-- `none` is a walk that takes more rounds than there are factories. -/
def construct (s : FactoryRegistry) (made : Made) : Option (Option FactoryRegistry) :=
  let t := s.allocate made
  (t.walk (factory made).key (t.count + 1) t.first none).map (t.verifyUnique s.count)

def make (junk : ℕ → NRAttributeFactory) : FactoryRegistry := ⟨junk, 0, none⟩

/-- The program goes on as long as no assertion fails. -/
def machine : Machine FactoryRegistry Made Unit := ⟨fun s made => (s.construct made).join.map (·, ())⟩

def next (s : FactoryRegistry) (i : ℕ) : Option ℕ := (s.heap i).next

/-- The list is acyclic and has one factory for each key that was registered, and the next assertion fails exactly for
such a key with another type. -/
structure Complete (s : FactoryRegistry) (mades : List Made) : Prop where
  listed : ∃ l, NextChain.Path s.next s.first l none ∧ (l.map fun i => (s.heap i).key).Nodup ∧
    ∀ key, key ∈ l.map (fun i => (s.heap i).key) ↔ ∃ earlier ∈ mades, (factory earlier).key = key
  verified : ∀ made, s.construct made = some none ↔
    ∃ earlier ∈ mades, (factory earlier).key = (factory made).key ∧ (factory earlier).type ≠ (factory made).type

/-- What the code keeps: the last factory alone. -/
structure Last (s : FactoryRegistry) (made : Made) : Prop where
  first : ∃ i < s.count, s.first = some i ∧ s.heap i = factory made

variable {s t : FactoryRegistry} {made made' : Made} {mades : List Made} {junk : ℕ → NRAttributeFactory}

/-- The first factory is listed. -/
theorem construct_empty (empty : s.first = none) (made : Made) : ∃ t, s.construct made = some (some t) ∧ t.Last made := by
  refine ⟨(s.allocate made).enlist s.count none, ?_, ⟨s.count, Nat.lt_succ_self _, rfl, Function.update_self _ _ _⟩⟩
  simp only [construct, allocate, empty, walk]
  rfl

/-- A later one is compared with the last alone, and takes its place. -/
theorem Last.construct (last : s.Last made) (made' : Made) :
    ((factory made').key = (factory made).key ∧ (factory made').type ≠ (factory made).type ∧ s.construct made' = some none) ∨
      (¬((factory made').key = (factory made).key ∧ (factory made').type ≠ (factory made).type) ∧
        ∃ t, s.construct made' = some (some t) ∧ t.Last made') := by
  obtain ⟨i, inside, first, here⟩ := last.first
  have apart : i ≠ s.count := Nat.ne_of_lt inside
  have kept : (s.allocate made').heap i = factory made := (Function.update_of_ne apart _ _).trans here
  have new : (s.allocate made').heap s.count = factory made' := Function.update_self _ _ _
  have started : (s.allocate made').first = some i := first
  obtain ⟨rounds, count⟩ : ∃ rounds, (s.allocate made').count + 1 = rounds + 2 := ⟨s.count, rfl⟩
  by_cases same : (factory made').key = (factory made).key
  · have walked : (s.allocate made').walk (factory made').key (rounds + 2) (some i) none = some (.identical i) := by
      rw [walk, kept, if_pos same]
    have verified : s.construct made' = some (if (factory made').type = (factory made).type then some (s.allocate made') else none) := by
      simp only [FactoryRegistry.construct, started, count, walked, Option.map_some, verifyUnique, new, kept]
    by_cases equal : (factory made').type = (factory made).type
    · refine Or.inr ⟨fun differs => differs.2 equal, s.allocate made', by rw [verified, if_pos equal], ?_⟩
      have alike : factory made = factory made' := by
        simp only [factory] at same equal ⊢
        rw [same, equal]
      exact ⟨i, Nat.lt_succ_of_lt inside, first, kept.trans alike⟩
    · exact Or.inl ⟨same, equal, by rw [verified, if_neg equal]⟩
  · have walked : (s.allocate made').walk (factory made').key (rounds + 2) (some i) none = some (.missing (some i)) := by
      rw [walk, kept, if_neg same]
      rfl
    refine Or.inr ⟨fun differs => same differs.1, (s.allocate made').enlist s.count (some i), ?_, ⟨s.count, Nat.lt_succ_self _, rfl, ?_⟩⟩
    · simp only [FactoryRegistry.construct, started, count, walked, Option.map_some, verifyUnique]
    · exact (Function.update_of_ne apart.symm _ _).trans new

/-- Whether only one key has been registered. -/
def OneKey (mades : List Made) : Prop := ∀ earlier ∈ mades, ∀ later ∈ mades, (factory earlier).key = (factory later).key

instance OneKey.decidable (mades : List Made) : Decidable (OneKey mades) := inferInstanceAs (Decidable (∀ earlier ∈ mades, _))

theorem OneKey.left {more : List Made} (oneKey : OneKey (mades ++ more)) : OneKey mades := fun earlier first later second =>
  oneKey earlier (List.mem_append_left _ first) later (List.mem_append_left _ second)

/-- After a run, the list holds the last factory alone. Factories of one key are all alike. -/
theorem run_last {outs : List Unit} (run : machine.run (make junk) mades = some (s, outs)) :
    (mades = [] ∧ s.first = none) ∨ ∃ made ∈ mades, s.Last made ∧ (OneKey mades → ∀ earlier ∈ mades, factory earlier = factory made) := by
  induction mades using List.reverseRecOn generalizing s outs with
  | nil =>
    cases Option.some.inj run
    exact Or.inl ⟨rfl, rfl⟩
  | append_singleton before made ih =>
    have member : made ∈ before ++ [made] := List.mem_append_right _ List.mem_cons_self
    obtain ⟨mid, first, rest, early, late, _⟩ := Machine.run_split run
    obtain ⟨next, taken, later⟩ := Option.bind_eq_some_iff.mp late
    obtain ⟨final, finished, joined⟩ := Option.bind_eq_some_iff.mp later
    cases Option.some.inj finished
    cases Option.some.inj joined
    obtain ⟨t, result, same⟩ := Option.map_eq_some_iff.mp taken
    cases same
    rcases ih early with ⟨rfl, empty⟩ | ⟨previous, listed, last, alike⟩
    · obtain ⟨u, constructed, after⟩ := construct_empty empty made
      rw [constructed] at result
      cases result
      exact Or.inr ⟨made, member, after, fun _ earlier only => by rw [List.mem_singleton.mp only]⟩
    · rcases last.construct made with ⟨_, _, failed⟩ | ⟨passed, u, constructed, after⟩
      · rw [failed] at result
        cases result
      · rw [constructed] at result
        cases result
        refine Or.inr ⟨made, member, after, fun oneKey earlier inside => ?_⟩
        rcases List.mem_append.mp inside with old | new
        · have key := oneKey made member previous (List.mem_append_left _ listed)
          have type : (factory made).type = (factory previous).type := by
            by_contra differs
            exact passed ⟨key, differs⟩
          refine (alike oneKey.left earlier old).trans ?_
          simp only [factory] at key type ⊢
          rw [key, type]
        · rw [List.mem_singleton.mp new]

theorem Last.path (last : s.Last made) : ∃ i, NextChain.Path s.next s.first [i] none ∧ s.heap i = factory made := by
  obtain ⟨i, _, first, here⟩ := last.first
  refine ⟨i, ⟨first, ?_⟩, here⟩
  rw [next, here]
  rfl

/-- The registry is as it should be exactly as long as there is one key. -/
theorem complete_iff (junk : ℕ → NRAttributeFactory) (mades : List Made) (s : FactoryRegistry) (outs : List Unit)
    (run : machine.run (make junk) mades = some (s, outs)) : s.Complete mades ↔ OneKey mades := by
  rcases run_last run with ⟨rfl, empty⟩ | ⟨made, member, last, alike⟩
  · refine iff_of_true ⟨⟨[], empty, List.nodup_nil, fun key => ?_⟩, fun made => ?_⟩ fun earlier none => absurd none List.not_mem_nil
    · exact iff_of_false List.not_mem_nil fun ⟨_, inside, _⟩ => List.not_mem_nil inside
    · obtain ⟨t, constructed, _⟩ := construct_empty empty made
      rw [constructed]
      refine iff_of_false (fun failed => ?_) fun ⟨_, inside, _⟩ => List.not_mem_nil inside
      cases failed
  · obtain ⟨i, path, here⟩ := last.path
    constructor
    · rintro ⟨⟨l, listed, _, keys⟩, _⟩
      cases listed.unique path
      have only : ∀ earlier ∈ mades, (factory earlier).key = (factory made).key := fun earlier inside => by
        have found := (keys (factory earlier).key).mpr ⟨earlier, inside, rfl⟩
        rw [List.map_singleton, List.mem_singleton, here] at found
        exact found
      exact fun earlier first later second => (only earlier first).trans (only later second).symm
    · intro oneKey
      refine ⟨⟨[i], path, List.nodup_cons.mpr ⟨List.not_mem_nil, List.nodup_nil⟩, fun key => ?_⟩, fun made' => ?_⟩
      · rw [List.map_singleton, List.mem_singleton, here]
        constructor
        · exact fun same => ⟨made, member, same.symm⟩
        · rintro ⟨earlier, inside, rfl⟩
          exact oneKey earlier inside made member
      · rcases last.construct made' with ⟨key, type, failed⟩ | ⟨passed, t, constructed, _⟩
        · exact iff_of_true failed ⟨made, member, key.symm, fun same => type same.symm⟩
        · refine iff_of_false (fun failed => ?_) ?_
          · rw [constructed] at failed
            cases failed
          · rintro ⟨earlier, inside, key, type⟩
            rw [alike oneKey earlier inside] at key type
            exact passed ⟨key.symm, fun same => type same.symm⟩

def blank : FactoryRegistry := make fun _ => ⟨0, 0, none⟩

/-- Two factories of one key and type. -/
theorem complete_iff_sample : ∃ s outs, machine.run blank [(1001, 0), (1001, 0)] = some (s, outs) ∧ s.Complete [(1001, 0), (1001, 0)] := by
  obtain ⟨s, outs, run⟩ : ∃ s outs, machine.run blank [(1001, 0), (1001, 0)] = some (s, outs) := ⟨_, _, rfl⟩
  exact ⟨s, outs, run, (complete_iff _ [(1001, 0), (1001, 0)] s outs run).mpr (by decide)⟩

/-- The second key takes the place of the first, which then passes with another type. -/
theorem first_forgotten : ∃ s outs, machine.run blank [(1001, 0), (1002, 0)] = some (s, outs) ∧
    NextChain.Path s.next s.first [1] none ∧ (s.heap 1).key = 1002 ∧ s.construct (1001, 4) ≠ some none :=
  ⟨_, _, rfl, ⟨rfl, rfl⟩, rfl, fun failed => Option.some_ne_none _ (Option.some.inj failed)⟩

end FactoryRegistry

end Ns2
