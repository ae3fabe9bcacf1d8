import Ns2.Mpls.Tables

namespace Ns2

open MPLS

namespace MPLSAddressClassifier

/-- The pointer leads nowhere or to an entry of the LIB. -/
def Points (n : ℕ) (ptr : ℤ) : Prop := -1 ≤ ptr ∧ ptr < n

/-- The tables fit in their arrays, and all pointers lead into the LIB. -/
structure Sound (s : MPLSAddressClassifier) : Prop where
  pftSize : s.pft.nb ≤ MaxPFTEntryNB
  erbSize : s.erb.nb ≤ s.lib.nb
  libSize : s.lib.nb ≤ MaxLIBEntryNB - 1
  pft : s.pft.All fun e => Points s.lib.nb e.LIBptr ∧ Points s.lib.nb e.aPATHptr ∧ (0 ≤ e.FEC → 0 ≤ e.LIBptr)
  erb : s.erb.All fun e => Points s.lib.nb e.LIBptr ∧ (e.LSPid ≠ -1 ↔ 0 ≤ e.LIBptr)
  lib : s.lib.All fun e => Points s.lib.nb e.LIBptr

variable {s t : MPLSAddressClassifier} {ptr i : ℤ} {v : Labels} {nb m n : ℕ} {out : Bool}

theorem Points.mono (points : Points m ptr) (more : m ≤ n) : Points n ptr := ⟨points.1, points.2.trans_le (Int.ofNat_le.mpr more)⟩

theorem points_none (n : ℕ) : Points n (-1) := ⟨le_rfl, by omega⟩

theorem points_of_nonneg (low : 0 ≤ ptr) (high : ptr < n) : Points n ptr := ⟨by omega, high⟩

theorem pftLocate_some {FEC PHB : ℤ} (located : s.pftLocate FEC PHB = some nb) :
    nb < s.pft.nb ∧ 0 ≤ FEC ∧ (s.pft.entry nb).FEC = FEC ∧ (s.pft.entry nb).PHB = PHB := by
  rw [pftLocate] at located
  split_ifs at located with negative
  obtain ⟨inUse, here⟩ := UsedArray.locate_some located
  exact ⟨inUse, not_lt.mp negative, of_decide_eq_true here⟩

theorem erbLocate_some {LSPid FEC : ℤ} (located : s.erbLocate LSPid FEC = some nb) : nb < s.erb.nb ∧ (s.erb.entry nb).LSPid = LSPid := by
  obtain ⟨inUse, here⟩ := UsedArray.locate_some located
  exact ⟨inUse, of_decide_eq_true here⟩

namespace Sound

/-- A located entry of the PFT has a pointer. -/
theorem located (sound : Sound s) {FEC PHB : ℤ} (located : s.pftLocate FEC PHB = some nb) :
    0 ≤ (s.pft.entry nb).LIBptr ∧ (s.pft.entry nb).LIBptr < s.lib.nb := by
  obtain ⟨inUse, positive, here, _⟩ := pftLocate_some located
  obtain ⟨points, _, live⟩ := sound.pft nb inUse
  exact ⟨live (here ▸ positive), points.2⟩

theorem located_erb (sound : Sound s) {LSPid FEC : ℤ} (located : s.erbLocate LSPid FEC = some nb) :
    Points s.lib.nb (s.erb.entry nb).LIBptr ∧ (LSPid ≠ -1 ↔ 0 ≤ (s.erb.entry nb).LIBptr) := by
  obtain ⟨inUse, here⟩ := erbLocate_some located
  exact here ▸ sound.erb nb inUse

theorem libInsert (sound : Sound s) (v : Labels) : Sound (s.libInsert v).1 := by
  rw [MPLSAddressClassifier.libInsert]
  split_ifs with full
  · exact sound
  · have size := sound.libSize
    refine ⟨sound.pftSize, sound.erbSize.trans (Nat.le_succ _), ?_, ?_, ?_, ?_⟩
    · show s.lib.nb + 1 ≤ MaxLIBEntryNB - 1
      omega
    · exact sound.pft.mono fun e known => ⟨known.1.mono (Nat.le_succ _), known.2.1.mono (Nat.le_succ _), known.2.2⟩
    · exact sound.erb.mono fun e known => ⟨known.1.mono (Nat.le_succ _), known.2⟩
    · exact (sound.lib.mono fun e known => known.mono (Nat.le_succ _)).push (points_none _)

/-- The new entry, if there is one. -/
theorem libInsert_ptr (s : MPLSAddressClassifier) (v : Labels) : Points (s.libInsert v).1.lib.nb (s.libInsert v).2 := by
  rw [MPLSAddressClassifier.libInsert]
  split_ifs with full
  · exact points_none _
  · exact ⟨by omega, Int.ofNat_lt.mpr (Nat.lt_succ_self _)⟩

theorem pftInsert (sound : Sound s) {FEC PHB : ℤ} (low : 0 ≤ ptr) (high : ptr < s.lib.nb) (done : s.pftInsert FEC PHB ptr = some t) : Sound t := by
  rw [MPLSAddressClassifier.pftInsert] at done
  split_ifs at done with room
  cases done
  exact ⟨room, sound.erbSize, sound.libSize, sound.pft.push ⟨points_of_nonneg low high, points_none _, fun _ => low⟩, sound.erb, sound.lib⟩

theorem erbInsert (sound : Sound s) {LSPid FEC : ℤ} (er : LSPid ≠ DEFAULT_PHB) (low : 0 ≤ ptr) (high : ptr < s.lib.nb) (fewer : s.erb.nb < s.lib.nb)
    (done : s.erbInsert LSPid FEC ptr = some t) : Sound t := by
  rw [MPLSAddressClassifier.erbInsert] at done
  split_ifs at done
  cases done
  exact ⟨sound.pftSize, fewer, sound.libSize, sound.pft, sound.erb.push ⟨points_of_nonneg low high, iff_of_true er low⟩, sound.lib⟩

/-- A change of entries of the PFT that keeps their number. -/
theorem withPft (sound : Sound s) {pft : UsedArray PFTEntry} (size : pft.nb = s.pft.nb)
    (all : pft.All fun e => Points s.lib.nb e.LIBptr ∧ Points s.lib.nb e.aPATHptr ∧ (0 ≤ e.FEC → 0 ≤ e.LIBptr)) : Sound { s with pft } :=
  ⟨size ▸ sound.pftSize, sound.erbSize, sound.libSize, all, sound.erb, sound.lib⟩

theorem pftDeleteLIBptr (sound : Sound s) : Sound (s.pftDeleteLIBptr ptr) := by
  refine sound.withPft rfl (sound.pft.map fun e known => ?_)
  split_ifs
  · exact ⟨points_none _, known.2.1, fun positive => absurd (show (0 : ℤ) ≤ -1 from positive) (by decide)⟩
  · exact known

theorem erbDelete (sound : Sound s) : Sound (s.erbDelete nb) :=
  ⟨sound.pftSize, sound.erbSize, sound.libSize, sound.pft, sound.erb.modify fun _ => ⟨points_none _, iff_of_false (fun live => live rfl) (by decide)⟩, sound.lib⟩

theorem reroute (sound : Sound s) {addr : ℤ} (points : Points s.lib.nb ptr) : Sound (s.reroute addr nb ptr) := by
  have own : (s.pft.modify nb fun e => { e with aPATHptr := ptr }).All fun e =>
      Points s.lib.nb e.LIBptr ∧ Points s.lib.nb e.aPATHptr ∧ (0 ≤ e.FEC → 0 ≤ e.LIBptr) :=
    sound.pft.modify fun known => ⟨known.1, points, known.2.2⟩
  refine sound.withPft rfl (own.map fun e known => ?_)
  split_ifs
  · exact ⟨known.1, points, known.2.2⟩
  · exact known

/-- A change of entries of the LIB that keeps their number. -/
theorem withLib (sound : Sound s) {lib : UsedArray LIBEntry} (size : lib.nb = s.lib.nb) (all : lib.All fun e => Points s.lib.nb e.LIBptr) :
    Sound { s with lib } where
  pftSize := sound.pftSize
  erbSize := size ▸ sound.erbSize
  libSize := size ▸ sound.libSize
  pft := size ▸ sound.pft
  erb := size ▸ sound.erb
  lib := size ▸ all

theorem libUpdate (sound : Sound s) (done : s.libUpdate i v = some t) : Sound t := by
  obtain ⟨lib, written, rfl⟩ := Option.map_eq_some_iff.mp done
  obtain ⟨j, _, _, rfl⟩ := UsedArray.write_eq_some written
  exact sound.withLib rfl (sound.lib.modify id)

theorem setLIBptr (sound : Sound s) (points : Points s.lib.nb ptr) (done : s.setLIBptr i ptr = some t) : Sound t := by
  obtain ⟨lib, written, rfl⟩ := Option.map_eq_some_iff.mp done
  obtain ⟨j, _, _, rfl⟩ := UsedArray.write_eq_some written
  exact sound.withLib rfl (sound.lib.modify fun _ => points)

theorem libIsDeleted (sound : Sound s) (done : s.libIsDeleted i = some (t, out)) : Sound t := by
  obtain ⟨e, _, answer⟩ := Option.map_eq_some_iff.mp done
  split_ifs at answer
  · cases answer
    refine sound.withLib rfl ((sound.lib.modify fun _ => points_none _).map fun e known => ?_)
    rw [LIBEntry.unlink]
    split_ifs
    · exact points_none _
    · exact known
  · cases answer
    exact sound

end Sound

/-- The pointer of an LSP is given to a FEC: to a new entry of the PFT, or to the LIB entry that the located one points to. -/
inductive Attached (s : MPLSAddressClassifier) (FEC PHB ptr : ℤ) (t : MPLSAddressClassifier) : Prop
  | inserted (absent : s.pftLocate FEC PHB = none) (done : s.pftInsert FEC PHB ptr = some t)
  | linked (nb : ℕ) (located : s.pftLocate FEC PHB = some nb) (done : s.setLIBptr (s.pft.entry nb).LIBptr ptr = some t)

/-- What a command does to tables that are sound. -/
inductive Change (s : MPLSAddressClassifier) : Command → MPLSAddressClassifier → Prop
  | nothing (c : Command) : Change s c s
  | newFEC (around : Surroundings) (addr : ℤ) (v : Labels) (t : MPLSAddressClassifier) (absent : s.pftLocate addr DEFAULT_PHB = none)
      (room : s.lib.nb ≠ MaxLIBEntryNB - 1) (inserted : (s.libInsert v).1.pftInsert addr DEFAULT_PHB s.lib.nb = some t) :
      Change s (.lspSetup around addr DEFAULT_PHB v) t
  | updateFEC (around : Surroundings) (addr : ℤ) (v : Labels) (t : MPLSAddressClassifier) (nb : ℕ)
      (located : s.pftLocate addr DEFAULT_PHB = some nb) (updated : s.libUpdate (s.pft.entry nb).LIBptr v = some t) :
      Change s (.lspSetup around addr DEFAULT_PHB v) t
  | reroute (around : Surroundings) (addr : ℤ) (v : Labels) (nb : ℕ) (located : s.pftLocate addr DEFAULT_PHB = some nb)
      (up : v.oIface > -1) : Change s (.lspSetup around addr DEFAULT_PHB v) ((s.libInsert v).1.reroute addr nb (s.libInsert v).2)
  | newLSP (around : Surroundings) (addr LSPid : ℤ) (v : Labels) (t : MPLSAddressClassifier) (er : LSPid ≠ DEFAULT_PHB)
      (absent : s.erbLocate LSPid addr = none) (room : s.lib.nb ≠ MaxLIBEntryNB - 1)
      (inserted : (s.libInsert v).1.erbInsert LSPid addr s.lib.nb = some t) : Change s (.lspSetup around addr LSPid v) t
  | updateLSP (around : Surroundings) (addr LSPid : ℤ) (v : Labels) (t : MPLSAddressClassifier) (nb : ℕ) (er : LSPid ≠ DEFAULT_PHB)
      (located : s.erbLocate LSPid addr = some nb) (updated : s.libUpdate (s.erb.entry nb).LIBptr v = some t) :
      Change s (.lspSetup around addr LSPid v) t
  | keptFEC (addr : ℤ) (v : Labels) (t : MPLSAddressClassifier) (nb : ℕ) (located : s.pftLocate addr DEFAULT_PHB = some nb)
      (updated : s.libUpdate (s.pft.entry nb).LIBptr v = some t) (asked : t.libIsDeleted (s.pft.entry nb).LIBptr = some (t, false)) :
      Change s (.lspRelease addr DEFAULT_PHB v) t
  | releasedFEC (addr : ℤ) (v : Labels) (t u : MPLSAddressClassifier) (nb : ℕ) (located : s.pftLocate addr DEFAULT_PHB = some nb)
      (updated : s.libUpdate (s.pft.entry nb).LIBptr v = some t) (asked : t.libIsDeleted (s.pft.entry nb).LIBptr = some (u, true)) :
      Change s (.lspRelease addr DEFAULT_PHB v) (u.pftDeleteLIBptr (s.pft.entry nb).LIBptr)
  | keptLSP (addr LSPid : ℤ) (v : Labels) (t : MPLSAddressClassifier) (nb : ℕ) (er : LSPid ≠ DEFAULT_PHB)
      (located : s.erbLocate LSPid addr = some nb) (updated : s.libUpdate (s.erb.entry nb).LIBptr v = some t)
      (asked : t.libIsDeleted (s.erb.entry nb).LIBptr = some (t, false)) : Change s (.lspRelease addr LSPid v) t
  | releasedLSP (addr LSPid : ℤ) (v : Labels) (t u : MPLSAddressClassifier) (nb : ℕ) (er : LSPid ≠ DEFAULT_PHB)
      (located : s.erbLocate LSPid addr = some nb) (updated : s.libUpdate (s.erb.entry nb).LIBptr v = some t)
      (asked : t.libIsDeleted (s.erb.entry nb).LIBptr = some (u, true)) :
      Change s (.lspRelease addr LSPid v) ((u.erbDelete nb).pftDeleteLIBptr (s.erb.entry nb).LIBptr)
  | bound (FEC PHB LSPid : ℤ) (t : MPLSAddressClassifier) (nb : ℕ) (lsp : s.erbLocate LSPid (-1) = some nb)
      (low : 0 ≤ (s.erb.entry nb).LIBptr) (attached : Attached s FEC PHB (s.erb.entry nb).LIBptr t) : Change s (.erLspBinding FEC PHB LSPid) t
  | stacked (erFEC0 erLSPid0 erFEC erLSPid : ℤ) (t : MPLSAddressClassifier) (nb0 nb : ℕ) (under : s.erbLocate erLSPid0 erFEC0 = some nb0)
      (lsp : s.erbLocate erLSPid erFEC = some nb) (low : 0 ≤ (s.erb.entry nb).LIBptr)
      (done : s.setLIBptr (s.erb.entry nb0).LIBptr (s.erb.entry nb).LIBptr = some t) :
      Change s (.erLspStacking erFEC0 erLSPid0 erFEC erLSPid) t
  | aggregated (fineFEC finePHB coarseFEC coarsePHB : ℤ) (t : MPLSAddressClassifier) (nb : ℕ)
      (coarse : s.pftLocate coarseFEC coarsePHB = some nb) (attached : Attached s fineFEC finePHB (s.pft.entry nb).LIBptr t) :
      Change s (.flowAggregation fineFEC finePHB coarseFEC coarsePHB) t
  | aPath (FEC PHB erFEC LSPid : ℤ) (entrynb nb : ℕ) (located : s.pftLocate FEC PHB = some entrynb)
      (lsp : s.erbLocate LSPid erFEC = some nb) : Change s (.aPathBinding FEC PHB erFEC LSPid)
        { s with pft := s.pft.modify entrynb fun e => { e with aPATHptr := (s.erb.entry nb).LIBptr } }

/-- No room in the LIB leaves everything as it is. -/
theorem libInsert_full (full : ¬(s.libInsert v).2 > -1) : (s.libInsert v).1 = s := by
  rw [libInsert] at full ⊢
  split_ifs at full ⊢ with size
  · rfl
  · exact absurd (show (-1 : ℤ) < (s.lib.nb : ℤ) by omega) full

theorem libInsert_new (new : (s.libInsert v).2 > -1) : s.lib.nb ≠ MaxLIBEntryNB - 1 ∧ (s.libInsert v).2 = s.lib.nb := by
  rw [libInsert] at new ⊢
  split_ifs at new ⊢ with size
  · exact absurd (show (-1 : ℤ) > -1 from new) (by decide)
  · exact ⟨size, rfl⟩

theorem libIsDeleted_false (asked : s.libIsDeleted i = some (t, false)) : t = s := by
  obtain ⟨e, _, answer⟩ := Option.map_eq_some_iff.mp asked
  split_ifs at answer
  · cases answer
  · cases answer
    rfl

namespace Sound

section Commands

variable {FEC PHB LSPid addr erFEC : ℤ} {around : Surroundings}

theorem setupFEC (sound : Sound s) (done : s.setupFEC around addr v = some (t, out)) : Change s (.lspSetup around addr DEFAULT_PHB v) t := by
  rw [MPLSAddressClassifier.setupFEC] at done
  cases located : s.pftLocate addr DEFAULT_PHB with
  | none =>
    simp only [located] at done
    split_ifs at done with new
    · obtain ⟨t', inserted, same⟩ := Option.map_eq_some_iff.mp done
      cases same
      obtain ⟨room, ptr⟩ := libInsert_new new
      exact .newFEC around addr v t located room (ptr ▸ inserted)
    · cases done
      rw [libInsert_full new]
      exact .nothing _
  | some nb =>
    have low := (sound.located located).1
    simp only [located, if_neg (show ¬(s.pft.entry nb).LIBptr ≤ -1 by omega)] at done
    obtain ⟨e, _, rest⟩ := Option.bind_eq_some_iff.mp done
    split_ifs at rest with down
    · cases rest
      exact .reroute around addr v nb located down.2.2.2.1
    · obtain ⟨t', updated, same⟩ := Option.map_eq_some_iff.mp rest
      cases same
      exact .updateFEC around addr v t nb located updated

theorem setupLSP (sound : Sound s) (er : LSPid ≠ DEFAULT_PHB) (done : s.setupLSP addr LSPid v = some (t, out)) :
    Change s (.lspSetup around addr LSPid v) t := by
  rw [MPLSAddressClassifier.setupLSP] at done
  cases located : s.erbLocate LSPid addr with
  | none =>
    simp only [located] at done
    split_ifs at done with new
    · obtain ⟨t', inserted, same⟩ := Option.map_eq_some_iff.mp done
      cases same
      obtain ⟨room, ptr⟩ := libInsert_new new
      exact .newLSP around addr LSPid v t er located room (ptr ▸ inserted)
    · cases done
      rw [libInsert_full new]
      exact .nothing _
  | some nb =>
    have low := (sound.located_erb located).2.mp er
    simp only [located, if_pos (show (s.erb.entry nb).LIBptr > -1 by omega)] at done
    obtain ⟨t', updated, same⟩ := Option.map_eq_some_iff.mp done
    cases same
    exact .updateLSP around addr LSPid v t nb er located updated

theorem releaseFEC (done : s.releaseFEC addr v = some (t, out)) : Change s (.lspRelease addr DEFAULT_PHB v) t := by
  rw [MPLSAddressClassifier.releaseFEC] at done
  cases located : s.pftLocate addr DEFAULT_PHB with
  | none =>
    simp only [located] at done
    cases done
    exact .nothing _
  | some nb =>
    simp only [located] at done
    obtain ⟨t', updated, rest⟩ := Option.bind_eq_some_iff.mp done
    obtain ⟨⟨u, deleted⟩, asked, same⟩ := Option.map_eq_some_iff.mp rest
    cases deleted with
    | true =>
      cases same
      exact .releasedFEC addr v t' u nb located updated asked
    | false =>
      cases same
      cases libIsDeleted_false asked
      exact .keptFEC addr v t' nb located updated asked

theorem releaseLSP (er : LSPid ≠ DEFAULT_PHB) (done : s.releaseLSP addr LSPid v = some (t, out)) : Change s (.lspRelease addr LSPid v) t := by
  rw [MPLSAddressClassifier.releaseLSP] at done
  cases located : s.erbLocate LSPid addr with
  | none =>
    simp only [located] at done
    cases done
    exact .nothing _
  | some nb =>
    simp only [located] at done
    obtain ⟨t', updated, rest⟩ := Option.bind_eq_some_iff.mp done
    obtain ⟨⟨u, deleted⟩, asked, same⟩ := Option.map_eq_some_iff.mp rest
    cases deleted with
    | true =>
      cases same
      exact .releasedLSP addr LSPid v t' u nb er located updated asked
    | false =>
      cases same
      cases libIsDeleted_false asked
      exact .keptLSP addr LSPid v t' nb er located updated asked

/-- `chainEnd` is the entry itself. -/
theorem attach {nb : ℕ} (located : s.pftLocate FEC PHB = some nb) (low : 0 ≤ (s.pft.entry nb).LIBptr)
    (done : ((chainEnd (s.pft.entry nb).LIBptr).bind fun last => (s.setLIBptr last ptr).map (·, true)) = some (t, out)) :
    Attached s FEC PHB ptr t := by
  rw [chainEnd, if_neg (not_lt.mpr low)] at done
  obtain ⟨t', linked, same⟩ := Option.map_eq_some_iff.mp done
  cases same
  exact .linked nb located linked

theorem erLspBinding (sound : Sound s) (done : s.erLspBinding FEC PHB erFEC LSPid = some (t, out)) : (t = s ∧ out = false) ∨
    ∃ nb, s.erbLocate LSPid erFEC = some nb ∧ 0 ≤ (s.erb.entry nb).LIBptr ∧ Attached s FEC PHB (s.erb.entry nb).LIBptr t := by
  rw [MPLSAddressClassifier.erLspBinding] at done
  cases lsp : s.erbLocate LSPid erFEC with
  | none =>
    simp only [lsp] at done
    cases done
    exact Or.inl ⟨rfl, rfl⟩
  | some nb =>
    simp only [lsp] at done
    split_ifs at done with loose
    · cases done
      exact Or.inl ⟨rfl, rfl⟩
    · refine Or.inr ⟨nb, rfl, not_lt.mp loose, ?_⟩
      cases located : s.pftLocate FEC PHB with
      | none =>
        simp only [located] at done
        obtain ⟨t', inserted, same⟩ := Option.map_eq_some_iff.mp done
        cases same
        exact .inserted located inserted
      | some nb' =>
        have low := (sound.located located).1
        simp only [located, if_neg (not_lt.mpr low)] at done
        exact attach located low done

theorem flowAggregation (sound : Sound s) {fineFEC finePHB : ℤ} (done : s.flowAggregation fineFEC finePHB FEC PHB = some (t, out)) :
    (t = s ∧ out = false) ∨ ∃ nb, s.pftLocate FEC PHB = some nb ∧ Attached s fineFEC finePHB (s.pft.entry nb).LIBptr t := by
  rw [MPLSAddressClassifier.flowAggregation] at done
  cases coarse : s.pftLocate FEC PHB with
  | none =>
    simp only [coarse] at done
    cases done
    exact Or.inl ⟨rfl, rfl⟩
  | some nb =>
    simp only [coarse, if_neg (not_lt.mpr (sound.located coarse).1)] at done
    refine Or.inr ⟨nb, rfl, ?_⟩
    cases located : s.pftLocate fineFEC finePHB with
    | none =>
      simp only [located] at done
      obtain ⟨t', inserted, same⟩ := Option.map_eq_some_iff.mp done
      cases same
      exact .inserted located inserted
    | some nb' =>
      have low := (sound.located located).1
      simp only [located, if_neg (not_lt.mpr low)] at done
      exact attach located low done

theorem erLspStacking {erFEC0 erLSPid0 erLSPid : ℤ} (done : s.erLspStacking erFEC0 erLSPid0 erFEC erLSPid = some (t, out)) :
    Change s (.erLspStacking erFEC0 erLSPid0 erFEC erLSPid) t := by
  rw [MPLSAddressClassifier.erLspStacking] at done
  cases under : s.erbLocate erLSPid0 erFEC0 with
  | none =>
    simp only [under] at done
    cases done
    exact .nothing _
  | some nb0 =>
    cases lsp : s.erbLocate erLSPid erFEC with
    | none =>
      simp only [under, lsp] at done
      cases done
      exact .nothing _
    | some nb =>
      simp only [under, lsp] at done
      split_ifs at done with loose0 loose
      · cases done
        exact .nothing _
      · cases done
        exact .nothing _
      · obtain ⟨t', linked, same⟩ := Option.map_eq_some_iff.mp done
        cases same
        exact .stacked erFEC0 erLSPid0 erFEC erLSPid t nb0 nb under lsp (not_lt.mp loose) linked

theorem change (sound : Sound s) {c : Command} (done : s.command c = some (t, out)) : Change s c t := by
  cases c with
  | lspSetup around addr LSPid v =>
    rw [MPLSAddressClassifier.command] at done
    split_ifs at done with topology
    · exact topology ▸ sound.setupFEC done
    · exact sound.setupLSP topology done
  | lspRelease addr LSPid v =>
    rw [MPLSAddressClassifier.command] at done
    split_ifs at done with topology
    · exact topology ▸ releaseFEC done
    · exact releaseLSP topology done
  | erLspBinding FEC PHB LSPid =>
    rcases sound.erLspBinding done with ⟨rfl, _⟩ | ⟨nb, lsp, low, attached⟩
    · exact .nothing _
    · exact .bound FEC PHB LSPid t nb lsp low attached
  | erLspStacking erFEC0 erLSPid0 erFEC erLSPid => exact erLspStacking done
  | flowAggregation fineFEC finePHB coarseFEC coarsePHB =>
    rcases sound.flowAggregation done with ⟨rfl, _⟩ | ⟨nb, coarse, attached⟩
    · exact .nothing _
    · exact .aggregated fineFEC finePHB coarseFEC coarsePHB t nb coarse attached
  | aPathBinding FEC PHB erFEC LSPid =>
    rw [MPLSAddressClassifier.command, MPLSAddressClassifier.aPathBinding] at done
    cases located : s.pftLocate FEC PHB with
    | none =>
      simp only [located] at done
      cases done
      exact .nothing _
    | some entrynb =>
      cases lsp : s.erbLocate LSPid erFEC with
      | none =>
        simp only [located, lsp] at done
        cases done
        exact .nothing _
      | some nb =>
        simp only [located, lsp] at done
        cases done
        exact .aPath FEC PHB erFEC LSPid entrynb nb located lsp

end Commands

theorem attached (sound : Sound s) {FEC PHB : ℤ} (low : 0 ≤ ptr) (high : ptr < s.lib.nb) (attached : Attached s FEC PHB ptr t) : Sound t := by
  cases attached with
  | inserted absent done => exact sound.pftInsert low high done
  | linked nb located done => exact sound.setLIBptr (points_of_nonneg low high) done

theorem of_change (sound : Sound s) {c : Command} (change : Change s c t) : Sound t := by
  have inserts (v : Labels) (room : s.lib.nb ≠ MaxLIBEntryNB - 1) : ((s.lib.nb : ℕ) : ℤ) < (s.libInsert v).1.lib.nb ∧
      (s.libInsert v).1.erb.nb < (s.libInsert v).1.lib.nb := by
    have size := sound.erbSize
    rw [MPLSAddressClassifier.libInsert, if_neg room]
    exact ⟨Int.ofNat_lt.mpr (Nat.lt_succ_self _), Nat.lt_succ_of_le size⟩
  cases change with
  | nothing => exact sound
  | newFEC around addr v t absent room inserted => exact (sound.libInsert v).pftInsert (Int.natCast_nonneg _) (inserts v room).1 inserted
  | updateFEC around addr v t nb located updated => exact sound.libUpdate updated
  | reroute around addr v nb located up => exact (sound.libInsert v).reroute (libInsert_ptr s v)
  | newLSP around addr LSPid v t er absent room inserted =>
    exact (sound.libInsert v).erbInsert er (Int.natCast_nonneg _) (inserts v room).1 (inserts v room).2 inserted
  | updateLSP around addr LSPid v t nb er located updated => exact sound.libUpdate updated
  | keptFEC addr v t nb located updated asked => exact sound.libUpdate updated
  | releasedFEC addr v t u nb located updated asked => exact ((sound.libUpdate updated).libIsDeleted asked).pftDeleteLIBptr
  | keptLSP addr LSPid v t nb er located updated asked => exact sound.libUpdate updated
  | releasedLSP addr LSPid v t u nb er located updated asked =>
    exact ((sound.libUpdate updated).libIsDeleted asked).erbDelete.pftDeleteLIBptr
  | bound FEC PHB LSPid t nb lsp low attached => exact sound.attached low (sound.located_erb lsp).1.2 attached
  | stacked erFEC0 erLSPid0 erFEC erLSPid t nb0 nb under lsp low done => exact sound.setLIBptr (sound.located_erb lsp).1 done
  | aggregated fineFEC finePHB coarseFEC coarsePHB t nb coarse attached =>
    exact sound.attached (sound.located coarse).1 (sound.located coarse).2 attached
  | aPath FEC PHB erFEC LSPid entrynb nb located lsp =>
    exact sound.withPft rfl (sound.pft.modify fun known => ⟨known.1, (sound.located_erb lsp).1, known.2.2⟩)

end Sound

theorem sound_make (pft : ℕ → PFTEntry) (erb : ℕ → ERBEntry) (lib : ℕ → LIBEntry) : Sound (make pft erb lib) where
  pftSize := Nat.zero_le _
  erbSize := le_rfl
  libSize := Nat.zero_le _
  pft _ inUse := absurd inUse (Nat.not_lt_zero _)
  erb _ inUse := absurd inUse (Nat.not_lt_zero _)
  lib _ inUse := absurd inUse (Nat.not_lt_zero _)

theorem run_sound {pft : ℕ → PFTEntry} {erb : ℕ → ERBEntry} {lib : ℕ → LIBEntry} {commands : List Command} {outs : List Bool}
    (run : machine.run (make pft erb lib) commands = some (s, outs)) : Sound s :=
  Machine.run_kept (P := fun _ _ => True) (fun _ _ _ _ sound _ done => sound.of_change (sound.change done)) (sound_make pft erb lib)
    (Machine.along_trivial machine _ _) run

end MPLSAddressClassifier

end Ns2
