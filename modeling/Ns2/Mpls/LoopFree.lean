import Ns2.Mpls.Classify

namespace Ns2

open MPLS Relation

namespace MPLSAddressClassifier

/-- The command is to make the entry of the LIB at `a` lead to the one at `b`. -/
inductive Leads (s : MPLSAddressClassifier) : Command → ℤ → ℤ → Prop
  | bound (FEC PHB LSPid : ℤ) (nb entrynb : ℕ) (lsp : s.erbLocate LSPid (-1) = some nb) (low : 0 ≤ (s.erb.entry nb).LIBptr)
      (located : s.pftLocate FEC PHB = some entrynb) :
      Leads s (.erLspBinding FEC PHB LSPid) (s.pft.entry entrynb).LIBptr (s.erb.entry nb).LIBptr
  | stacked (erFEC0 erLSPid0 erFEC erLSPid : ℤ) (nb0 nb : ℕ) (under : s.erbLocate erLSPid0 erFEC0 = some nb0)
      (low0 : 0 ≤ (s.erb.entry nb0).LIBptr) (lsp : s.erbLocate erLSPid erFEC = some nb) (low : 0 ≤ (s.erb.entry nb).LIBptr) :
      Leads s (.erLspStacking erFEC0 erLSPid0 erFEC erLSPid) (s.erb.entry nb0).LIBptr (s.erb.entry nb).LIBptr
  | aggregated (fineFEC finePHB coarseFEC coarsePHB : ℤ) (nb entrynb : ℕ) (coarse : s.pftLocate coarseFEC coarsePHB = some nb)
      (located : s.pftLocate fineFEC finePHB = some entrynb) :
      Leads s (.flowAggregation fineFEC finePHB coarseFEC coarsePHB) (s.pft.entry entrynb).LIBptr (s.pft.entry nb).LIBptr

/-- No entry is made to lead to one from which `LIBptr_` already leads to it. -/
def Forward (s : MPLSAddressClassifier) (c : Command) : Prop := ∀ a b, Leads s c a b → ¬ReflTransGen s.Link b.toNat a.toNat

variable {s t : MPLSAddressClassifier} {a b i : ℤ} {v : Labels} {c : Command} {out : Bool}

/-- No entry in use has a new link. -/
def Fewer (t s : MPLSAddressClassifier) : Prop := ∀ i j, t.Link i j → s.Link i j

theorem LoopFree.fewer (loopFree : s.LoopFree) (fewer : Fewer t s) : t.LoopFree := Acyclic.mono loopFree fewer

theorem fewer_of_lib (same : t.lib = s.lib) : Fewer t s := by
  intro i j link
  rwa [Link, next, same] at link

theorem Fewer.trans {u : MPLSAddressClassifier} (first : Fewer t s) (second : Fewer u t) : Fewer u s :=
  fun i j link => first i j (second i j link)

theorem fewer_libInsert : Fewer (s.libInsert v).1 s := by
  rw [libInsert]
  split_ifs
  · exact fun _ _ link => link
  · rintro i j ⟨inUse, next⟩
    rw [MPLSAddressClassifier.next] at next
    rcases Nat.lt_succ_iff_lt_or_eq.mp inUse with old | rfl
    · rw [UsedArray.push_old old] at next
      exact ⟨old, next⟩
    · rw [UsedArray.push_new] at next
      cases next

/-- A change of entries of the LIB that takes no pointer but to -1. -/
theorem fewer_withLib {lib : UsedArray LIBEntry} (size : lib.nb = s.lib.nb)
    (kept : ∀ i, (lib.entry i).LIBptr = (s.lib.entry i).LIBptr ∨ (lib.entry i).LIBptr = -1) : Fewer { s with lib } s := by
  rintro i j ⟨inUse, next⟩
  refine ⟨size ▸ inUse, ?_⟩
  rw [MPLSAddressClassifier.next] at next ⊢
  rcases kept i with same | none
  · rwa [← same]
  · rw [none] at next
    cases next

theorem fewer_libUpdate (updated : s.libUpdate i v = some t) : Fewer t s := by
  obtain ⟨lib, written, rfl⟩ := Option.map_eq_some_iff.mp updated
  obtain ⟨k, _, _, rfl⟩ := UsedArray.write_eq_some written
  refine fewer_withLib rfl fun i => Or.inl ?_
  by_cases here : i = k
  · rw [here, UsedArray.modify_self]
    rfl
  · rw [UsedArray.modify_other here]

theorem unlink_LIBptr (e : LIBEntry) (entrynb : ℤ) : (e.unlink entrynb).LIBptr = e.LIBptr ∨ (e.unlink entrynb).LIBptr = -1 := by
  rw [LIBEntry.unlink]
  split_ifs
  · exact Or.inr rfl
  · exact Or.inl rfl

theorem fewer_unlinked (s : MPLSAddressClassifier) (entrynb : ℤ) : Fewer { s with lib := s.lib.map fun e => e.unlink entrynb } s :=
  fewer_withLib rfl fun k => unlink_LIBptr (s.lib.entry k) entrynb

theorem fewer_libIsDeleted (asked : s.libIsDeleted i = some (t, out)) : Fewer t s := by
  obtain ⟨e, _, answer⟩ := Option.map_eq_some_iff.mp asked
  split_ifs at answer
  · cases answer
    have own : Fewer { s with lib := s.lib.modify i.toNat fun e => { e with LIBptr := -1 } } s := by
      refine fewer_withLib rfl fun k => ?_
      by_cases here : k = i.toNat
      · rw [here, UsedArray.modify_self]
        exact Or.inr rfl
      · rw [UsedArray.modify_other here]
        exact Or.inl rfl
    exact own.trans (fewer_unlinked { s with lib := s.lib.modify i.toNat fun e => { e with LIBptr := -1 } } i)
  · cases answer
    exact fun _ _ link => link

theorem fewer_pftInsert {FEC PHB ptr : ℤ} (done : s.pftInsert FEC PHB ptr = some t) : Fewer t s := by
  rw [pftInsert] at done
  split_ifs at done
  cases done
  exact fewer_of_lib rfl

theorem fewer_erbInsert {LSPid FEC ptr : ℤ} (done : s.erbInsert LSPid FEC ptr = some t) : Fewer t s := by
  rw [erbInsert] at done
  split_ifs at done
  cases done
  exact fewer_of_lib rfl

/-- Every other command leaves no more links than there were. -/
theorem Change.fewer (change : Change s c t) (still : ∀ a b, ¬Leads s c a b) : Fewer t s := by
  cases change with
  | nothing => exact fun _ _ link => link
  | newFEC around addr v t absent room inserted => exact fewer_libInsert.trans (fewer_pftInsert inserted)
  | updateFEC around addr v t nb located updated => exact fewer_libUpdate updated
  | reroute around addr v nb located up => exact fewer_libInsert.trans (fewer_of_lib rfl)
  | newLSP around addr LSPid v t er absent room inserted => exact fewer_libInsert.trans (fewer_erbInsert inserted)
  | updateLSP around addr LSPid v t nb er located updated => exact fewer_libUpdate updated
  | keptFEC addr v t nb located updated asked => exact fewer_libUpdate updated
  | releasedFEC addr v t u nb located updated asked =>
    exact ((fewer_libUpdate updated).trans (fewer_libIsDeleted asked)).trans (fewer_of_lib rfl)
  | keptLSP addr LSPid v t nb er located updated asked => exact fewer_libUpdate updated
  | releasedLSP addr LSPid v t u nb er located updated asked =>
    exact ((fewer_libUpdate updated).trans (fewer_libIsDeleted asked)).trans (fewer_of_lib rfl)
  | bound FEC PHB LSPid t nb lsp low attached =>
    cases attached with
    | inserted absent done => exact fewer_pftInsert done
    | linked entrynb located done => exact absurd (.bound FEC PHB LSPid nb entrynb lsp low located) (still _ _)
  | stacked erFEC0 erLSPid0 erFEC erLSPid t nb0 nb under lsp low done =>
    have low0 : 0 ≤ (s.erb.entry nb0).LIBptr := by
      obtain ⟨lib, written, _⟩ := Option.map_eq_some_iff.mp done
      obtain ⟨k, ptr, _⟩ := UsedArray.write_eq_some written
      omega
    exact absurd (.stacked erFEC0 erLSPid0 erFEC erLSPid nb0 nb under low0 lsp low) (still _ _)
  | aggregated fineFEC finePHB coarseFEC coarsePHB t nb coarse attached =>
    cases attached with
    | inserted absent done => exact fewer_pftInsert done
    | linked entrynb located done => exact absurd (.aggregated fineFEC finePHB coarseFEC coarsePHB nb entrynb coarse located) (still _ _)
  | aPath => exact fewer_of_lib rfl

/-- A command that is to make an entry lead to another does so. -/
theorem Leads.done (leads : Leads s c a b) (sound : Sound s) (done : s.command c = some (t, out)) : s.setLIBptr a b = some t := by
  cases leads with
  | bound FEC PHB LSPid nb entrynb lsp low located =>
    have low' := (sound.located located).1
    simp only [command, erLspBinding, lsp, located, if_neg (not_lt.mpr low), if_neg (not_lt.mpr low'), chainEnd, Option.bind_some] at done
    obtain ⟨t', linked, same⟩ := Option.map_eq_some_iff.mp done
    cases same
    exact linked
  | stacked erFEC0 erLSPid0 erFEC erLSPid nb0 nb under low0 lsp low =>
    simp only [command, erLspStacking, under, lsp, if_neg (not_lt.mpr low0), if_neg (not_lt.mpr low)] at done
    obtain ⟨t', linked, same⟩ := Option.map_eq_some_iff.mp done
    cases same
    exact linked
  | aggregated fineFEC finePHB coarseFEC coarsePHB nb entrynb coarse located =>
    have low := (sound.located coarse).1
    have low' := (sound.located located).1
    simp only [command, flowAggregation, coarse, located, if_neg (not_lt.mpr low), if_neg (not_lt.mpr low'), chainEnd,
      Option.bind_some] at done
    obtain ⟨t', linked, same⟩ := Option.map_eq_some_iff.mp done
    cases same
    exact linked

theorem setLIBptr_loopFree_iff (loopFree : s.LoopFree) (low : 0 ≤ b) (done : s.setLIBptr a b = some t) :
    t.LoopFree ↔ ¬ReflTransGen s.Link b.toNat a.toNat := by
  obtain ⟨lib, written, rfl⟩ := Option.map_eq_some_iff.mp done
  obtain ⟨k, rfl, inUse, rfl⟩ := UsedArray.write_eq_some written
  rw [Int.toNat_natCast]
  refine acyclic_relink loopFree (fun x y apart => ?_) fun y => ?_
  · rw [Link, Link, next, next, UsedArray.modify_other apart, UsedArray.modify_nb]
  · rw [Link, next, UsedArray.modify_self, UsedArray.modify_nb, and_iff_right inUse, target_of_nonneg low, Option.some.injEq]
    exact eq_comm

theorem Leads.low (leads : Leads s c a b) (sound : Sound s) : 0 ≤ b := by
  cases leads with
  | bound _ _ _ _ _ _ low _ => exact low
  | stacked _ _ _ _ _ _ _ _ _ low => exact low
  | aggregated _ _ _ _ _ _ coarse _ => exact (sound.located coarse).1

/-- A step leaves no loop exactly if it is a forward one. -/
theorem step_loopFree_iff (sound : Sound s) (loopFree : s.LoopFree) (done : s.command c = some (t, out)) :
    t.LoopFree ↔ Forward s c := by
  by_cases lead : ∃ a b, Leads s c a b
  · obtain ⟨a, b, leads⟩ := lead
    constructor
    · intro after a b leads
      exact (setLIBptr_loopFree_iff loopFree (leads.low sound) (leads.done sound done)).mp after
    · intro forward
      exact (setLIBptr_loopFree_iff loopFree (leads.low sound) (leads.done sound done)).mpr (forward a b leads)
  · have still (a b : ℤ) (leads : Leads s c a b) : False := lead ⟨a, b, leads⟩
    exact iff_of_true (loopFree.fewer ((sound.change done).fewer still)) fun a b leads => (still a b leads).elim

theorem loopFree_make (pft : ℕ → PFTEntry) (erb : ℕ → ERBEntry) (lib : ℕ → LIBEntry) : (make pft erb lib).LoopFree := by
  refine Acyclic.mono (acyclic_of_rank id fun i j k wrong _ => absurd wrong id) fun i j link => ?_
  exact absurd link.1 (Nat.not_lt_zero i)

/-- The links form no loop, and every packet is classified. -/
structure Classifies (s : MPLSAddressClassifier) : Prop where
  loopFree : s.LoopFree
  ends : ∀ ttl dst stack, ∃ rounds ret, s.mplsClassify ttl rounds dst stack = some ret

theorem LoopFree.classifies (loopFree : s.LoopFree) (sound : Sound s) : Classifies s :=
  ⟨loopFree, fun _ _ _ => ⟨s.lib.nb, mplsClassify_ends loopFree sound⟩⟩

/-- A run keeps the links without a loop and all packets classified exactly if all its commands are forward ones. -/
theorem classifies_iff {pft : ℕ → PFTEntry} {erb : ℕ → ERBEntry} {lib : ℕ → LIBEntry} {commands : List Command} {outs : List Bool}
    (run : machine.run (make pft erb lib) commands = some (s, outs)) :
    machine.Throughout Classifies (make pft erb lib) commands ↔ machine.Along Forward (make pft erb lib) commands := by
  refine Machine.throughout_iff_along_of_run (K := Sound) (fun s c t out sound classifies done => ?_) run (sound_make pft erb lib)
    ((loopFree_make pft erb lib).classifies (sound_make pft erb lib))
  have sound' := sound.of_change (sound.change done)
  refine ⟨sound', ?_⟩
  rw [← step_loopFree_iff sound classifies.loopFree done]
  exact ⟨fun after => after.loopFree, fun after => after.classifies sound'⟩

/-- An ER-LSP is set up, and the FEC 5 is bound to it. -/
theorem classifies_iff_sample : machine.Throughout Classifies sampleMake (sampleBindings [1000, 1001]) ↔
    machine.Along Forward sampleMake (sampleBindings [1000, 1001]) := by
  have known : (machine.run sampleMake (sampleBindings [1000, 1001])).map Prod.snd = some [true, true, true, true, true] := by decide
  exact classifies_iff (Machine.eq_some_of_answer sampleMake known)

/-- An ER-LSP that is stacked on itself. -/
theorem stacked_on_itself : ∃ s, machine.run sampleMake [.lspSetup calm 5 1000 ⟨1, 7, 2, 8⟩, .erLspStacking 5 1000 5 1000] =
      some (s, [true, true]) ∧ ¬s.LoopFree ∧ ∀ ttl rounds dst, s.mplsClassify ttl rounds dst [⟨7, 32⟩] = none := by
  have known : (machine.run sampleMake [.lspSetup calm 5 1000 ⟨1, 7, 2, 8⟩, .erLspStacking 5 1000 5 1000]).map
      (fun answer => (decide (answer.1.lib.nb = 1 ∧ (answer.1.lib.entry 0).LIBptr = 0 ∧ (answer.1.lib.entry 0).oLabel = 8 ∧
        answer.1.libLookup 7 = some 0), answer.2)) = some (true, [true, true]) := by decide
  obtain ⟨⟨s, outs⟩, run, same⟩ := Option.map_eq_some_iff.mp known
  obtain ⟨held, rfl⟩ := Prod.mk.inj same
  obtain ⟨size, self, oLabel, located⟩ := of_decide_eq_true held
  have inUse : 0 < s.lib.nb := size.symm ▸ Nat.one_pos
  refine ⟨s, run, fun loopFree => loopFree 0 (.single ⟨inUse, ?_⟩), fun ttl rounds dst => ?_⟩
  · rw [next, self]
    rfl
  · have swapped : ¬(s.lib.entry 0).oLabel < 0 := by
      rw [show (s.lib.entry 0).oLabel = 8 from oLabel]
      decide
    have processed : s.processLabelP ttl rounds ⟨7, 32⟩ [] = none := by
      rw [processLabelP, if_neg (show ¬(checkTTL ⟨7, 32⟩ []).isEmpty = true by decide)]
      show (s.libLookup 7).elim _ _ = none
      rw [located, Option.elim_some, convertL2toL2, if_neg swapped, pushTunnel_never inUse self]
      rfl
    rw [mplsClassify, processed]
    rfl

end MPLSAddressClassifier

end Ns2
