import Ns2.Library.NextChain
import Ns2.Mpls.Changes

namespace Ns2

open MPLS NextChain

namespace MPLSAddressClassifier

/-- The entry of the LIB that a pointer leads to. -/
def target (ptr : ℤ) : Option ℕ := if ptr < 0 then none else some ptr.toNat

/-- Along `LIBptr_`. -/
def next (s : MPLSAddressClassifier) (i : ℕ) : Option ℕ := target (s.lib.entry i).LIBptr

/-- The entries that are visited for a FEC: none if it is not in the PFT. -/
def Chain (s : MPLSAddressClassifier) (FEC PHB : ℤ) (l : List ℕ) : Prop :=
  (s.pftLocate FEC PHB = none ∧ l = []) ∨ ∃ nb, s.pftLocate FEC PHB = some nb ∧ NextChain.Path s.next (target (s.pft.entry nb).LIBptr) l none

/-- After `s` has become `t`, the entry that `ptr` leads to is visited for the FEC behind all that were visited before,
and no pointer is gone. -/
structure Bound (s t : MPLSAddressClassifier) (FEC PHB ptr : ℤ) : Prop where
  chain : ∃ l nb, s.Chain FEC PHB l ∧ nb < t.pft.nb ∧ (t.pft.entry nb).FEC = FEC ∧ (t.pft.entry nb).PHB = PHB ∧
    (∀ old, s.pftLocate FEC PHB = some old → nb = old) ∧ ∃ after, NextChain.Path t.next (target (t.pft.entry nb).LIBptr) (l ++ [ptr.toNat]) after
  pft : ∀ nb < s.pft.nb, 0 ≤ (s.pft.entry nb).LIBptr → 0 ≤ (t.pft.entry nb).LIBptr
  lib : ∀ i < s.lib.nb, 0 ≤ (s.lib.entry i).LIBptr → 0 ≤ (t.lib.entry i).LIBptr

/-- Only one entry of the LIB is visited for the FEC, if it is in the PFT. -/
def Single (s : MPLSAddressClassifier) (FEC PHB : ℤ) : Prop :=
  ∀ nb, s.pftLocate FEC PHB = some nb → s.next (s.pft.entry nb).LIBptr.toNat = none

variable {s t : MPLSAddressClassifier} {FEC PHB ptr : ℤ}

theorem target_of_nonneg (low : 0 ≤ ptr) : target ptr = some ptr.toNat := if_neg (not_lt.mpr low)

theorem Attached.bound_iff (sound : Sound s) (low : 0 ≤ ptr) (attached : Attached s FEC PHB ptr t) :
    Bound s t FEC PHB ptr ↔ s.Single FEC PHB := by
  cases attached with
  | inserted absent done =>
    rw [pftInsert] at done
    split_ifs at done with room
    cases done
    refine iff_of_true ⟨⟨[], s.pft.nb, Or.inl ⟨absent, rfl⟩, Nat.lt_succ_self _, ?_⟩, ?_, fun _ _ positive => positive⟩ fun nb located => ?_
    · show ((s.pft.push ⟨FEC, PHB, ptr, -1⟩).entry s.pft.nb).FEC = FEC ∧ _
      rw [UsedArray.push_new]
      refine ⟨rfl, rfl, fun old located => ?_, _, target_of_nonneg low, rfl⟩
      cases absent.symm.trans located
    · intro nb inUse positive
      show 0 ≤ ((s.pft.push _).entry nb).LIBptr
      rwa [UsedArray.push_old inUse]
    · cases absent.symm.trans located
  | linked nb located done =>
    obtain ⟨inUse, _, fec, phb⟩ := pftLocate_some located
    obtain ⟨low', high'⟩ := sound.located located
    obtain ⟨lib, written, rfl⟩ := Option.map_eq_some_iff.mp done
    obtain ⟨h, head, _, rfl⟩ := UsedArray.write_eq_some written
    let t : MPLSAddressClassifier := { s with lib := s.lib.modify h fun e => { e with LIBptr := ptr } }
    have atHead : t.next h = some ptr.toNat := by
      rw [next, UsedArray.modify_self]
      exact target_of_nonneg low
    have elsewhere {i : ℕ} (other : i ≠ h) : t.next i = s.next i := by rw [next, UsedArray.modify_other other, next]
    have start : target (s.pft.entry nb).LIBptr = some h := by rw [target_of_nonneg low', head, Int.toNat_natCast]
    have single : s.Single FEC PHB ↔ s.next h = none := by
      have same : (s.pft.entry nb).LIBptr.toNat = h := by rw [head, Int.toNat_natCast]
      refine ⟨fun all => same ▸ all nb located, fun alone nb' located' => ?_⟩
      cases located.symm.trans located'
      rwa [same]
    rw [single]
    constructor
    · rintro ⟨⟨l, nb', chain, _, _, _, old, after, path⟩, _, _⟩
      cases old nb located
      rcases chain with ⟨absent, _⟩ | ⟨nb'', located', before⟩
      · cases absent.symm.trans located
      · cases located.symm.trans located'
        rw [start] at before path
        by_contra further
        obtain ⟨m, more⟩ := Option.ne_none_iff_exists'.mp further
        -- the second entry would have to be the one that has been linked
        have unchanged : t.next = s.next := by
          funext i
          by_cases here : i = h
          · rcases l with _ | ⟨x, _ | ⟨y, l⟩⟩
            · cases before
            · cases before.1
              cases more.symm.trans before.2
            · cases before.1
              cases more.symm.trans before.2.1
              rw [here, more]
              exact path.2.1
          · exact elsewhere here
        have longer : l ++ [ptr.toNat] <+: l := NextChain.Path.isPrefix (unchanged ▸ path) before
        have length := longer.length_le
        rw [List.length_append, List.length_singleton] at length
        omega
    · intro alone
      refine ⟨⟨[h], nb, Or.inr ⟨nb, located, start.symm ▸ ⟨rfl, alone⟩⟩, inUse, fec, phb, ?_, t.next ptr.toNat, ?_⟩, fun _ _ positive => positive, ?_⟩
      · intro old located'
        cases located.symm.trans located'
        rfl
      · exact ⟨start, atHead, rfl⟩
      · intro i _ positive
        by_cases here : i = h
        · show 0 ≤ (t.lib.entry i).LIBptr
          rw [here, UsedArray.modify_self]
          exact low
        · show 0 ≤ (t.lib.entry i).LIBptr
          rwa [UsedArray.modify_other here]

/-- Both commands keep a chain that they append to exactly when it is empty or has one entry. -/
theorem binding_iff {pft : ℕ → PFTEntry} {erb : ℕ → ERBEntry} {lib : ℕ → LIBEntry} {commands : List Command} {outs : List Bool}
    (run : machine.run (make pft erb lib) commands = some (s, outs)) :
    (∀ FEC PHB erFEC LSPid t, s.erLspBinding FEC PHB erFEC LSPid = some (t, true) →
      ∃ nb, s.erbLocate LSPid erFEC = some nb ∧ (Bound s t FEC PHB (s.erb.entry nb).LIBptr ↔ s.Single FEC PHB)) ∧
    ∀ fineFEC finePHB coarseFEC coarsePHB t, s.flowAggregation fineFEC finePHB coarseFEC coarsePHB = some (t, true) →
      ∃ nb, s.pftLocate coarseFEC coarsePHB = some nb ∧ (Bound s t fineFEC finePHB (s.pft.entry nb).LIBptr ↔ s.Single fineFEC finePHB) := by
  have sound := run_sound run
  constructor
  · intro FEC PHB erFEC LSPid t done
    rcases sound.erLspBinding done with ⟨_, wrong⟩ | ⟨nb, lsp, low, attached⟩
    · cases wrong
    · exact ⟨nb, lsp, attached.bound_iff sound low⟩
  · intro fineFEC finePHB coarseFEC coarsePHB t done
    rcases sound.flowAggregation done with ⟨_, wrong⟩ | ⟨nb, coarse, attached⟩
    · cases wrong
    · exact ⟨nb, coarse, attached.bound_iff sound (sound.located coarse).1⟩

/-- Rerouting is off. -/
def calm : Surroundings := ⟨0, 0, fun _ => false⟩

def sampleMake : MPLSAddressClassifier := make (fun _ => ⟨0, 0, 0, 0⟩) (fun _ => ⟨0, 0, 0⟩) fun _ => ⟨0, 0, 0, 0, 0⟩

/-- Three ER-LSPs are set up, and the FEC 5 is bound to some of them. -/
def sampleBindings (LSPids : List ℤ) : List Command :=
  ([1000, 1001, 1002].map fun LSPid => .lspSetup calm 5 LSPid ⟨-1, -1, 1, LSPid - 900⟩) ++ LSPids.map fun LSPid => .erLspBinding 5 (-1) LSPid

theorem binding_iff_sample : ∃ s outs t nb, machine.run sampleMake (sampleBindings [1000]) = some (s, outs) ∧
    s.erLspBinding 5 (-1) (-1) 1001 = some (t, true) ∧ s.erbLocate 1001 (-1) = some nb ∧
    (Bound s t 5 (-1) (s.erb.entry nb).LIBptr ↔ s.Single 5 (-1)) := by
  have known : ((machine.run sampleMake (sampleBindings [1000])).bind fun answer =>
      (answer.1.erLspBinding 5 (-1) (-1) 1001).map Prod.snd) = some true := by decide
  obtain ⟨⟨s, outs⟩, run, more⟩ := Option.bind_eq_some_iff.mp known
  obtain ⟨⟨t, answer⟩, done, rfl⟩ := Option.map_eq_some_iff.mp more
  obtain ⟨nb, lsp, iff⟩ := (binding_iff run).1 5 (-1) (-1) 1001 t done
  exact ⟨s, outs, t, nb, run, done, lsp, iff⟩

/-- The third binding takes the place of the second. -/
theorem second_cut : ∃ s outs t nb, machine.run sampleMake (sampleBindings [1000, 1001]) = some (s, outs) ∧
    s.erLspBinding 5 (-1) (-1) 1002 = some (t, true) ∧ s.erbLocate 1002 (-1) = some nb ∧ s.next 0 = some 1 ∧ t.next 0 = some 2 ∧
    ¬Bound s t 5 (-1) (s.erb.entry nb).LIBptr := by
  have known : ((machine.run sampleMake (sampleBindings [1000, 1001])).bind fun answer =>
      (answer.1.erLspBinding 5 (-1) (-1) 1002).map fun after =>
        (decide (answer.1.pftLocate 5 (-1) = some 0 ∧ (answer.1.pft.entry 0).LIBptr = 0 ∧ answer.1.next 0 = some 1 ∧ after.1.next 0 = some 2),
          after.2)) = some (true, true) := by decide
  obtain ⟨⟨s, outs⟩, run, more⟩ := Option.bind_eq_some_iff.mp known
  obtain ⟨⟨t, answer⟩, done, same⟩ := Option.map_eq_some_iff.mp more
  obtain ⟨held, rfl⟩ := Prod.mk.inj same
  obtain ⟨located, first, before, after⟩ := of_decide_eq_true held
  have sound := run_sound run
  rcases sound.erLspBinding done with ⟨_, wrong⟩ | ⟨nb, lsp, low, attached⟩
  · cases wrong
  · refine ⟨s, outs, t, nb, run, done, lsp, before, after, fun bound => ?_⟩
    have alone := (attached.bound_iff sound low).mp bound 0 located
    rw [first, Int.toNat_zero, before] at alone
    cases alone

end MPLSAddressClassifier

end Ns2
