import Ns2.Mpls.Binding

namespace Ns2

open MPLS

/-- Nothing is set up with these numbers. -/
def MPLS.Labels.Void (v : Labels) : Prop := v.iIface < 0 ∧ v.iLabel < 0 ∧ v.oIface < 0 ∧ v.oLabel < 0

namespace MPLSAddressClassifier

/-- The pointer does not lead to an entry whose LSP was released. -/
def Alive (lib : UsedArray LIBEntry) (ptr : ℤ) : Prop := 0 ≤ ptr → ¬(lib.entry ptr.toNat).Released

/-- No reference to a released LSP is left. -/
structure Clean (s : MPLSAddressClassifier) : Prop where
  pft : s.pft.All fun e => e.FEC ≠ -1 → Alive s.lib e.LIBptr ∧ Alive s.lib e.aPATHptr
  erb : s.erb.All fun e => e.LSPid ≠ -1 → Alive s.lib e.LIBptr
  lib : s.lib.All fun e => Alive s.lib e.LIBptr

/-- The LSP of the entry would be a released one. -/
def Empties (s : MPLSAddressClassifier) (ptr : ℤ) (v : Labels) : Prop := ((s.lib.entry ptr.toNat).update v).Released

/-- A live entry of the PFT or of the ERB, other than the one `nb`, refers to the entry otherwise than by the pointer that `LSPrelease` deletes. -/
def Referred (s : MPLSAddressClassifier) (ptr : ℤ) (other : ℕ → Prop) : Prop :=
  (∃ i < s.pft.nb, (s.pft.entry i).FEC ≠ -1 ∧ (s.pft.entry i).LIBptr ≠ ptr ∧ (s.pft.entry i).aPATHptr = ptr) ∨
    ∃ i < s.erb.nb, other i ∧ (s.erb.entry i).LSPid ≠ -1 ∧ (s.erb.entry i).LIBptr = ptr

/-- There is room for a FEC that is not in the PFT. -/
def Room (s : MPLSAddressClassifier) (FEC PHB : ℤ) : Prop := s.pftLocate FEC PHB = none → s.pft.nb < MaxPFTEntryNB

/-- No entry is set up without numbers, none is released while another one refers to it, and the PFT has room. -/
def Careful (s : MPLSAddressClassifier) : Command → Prop
  | .lspSetup _ addr LSPid v =>
    if LSPid = DEFAULT_PHB then s.Room addr DEFAULT_PHB ∧ (s.pftLocate addr DEFAULT_PHB = none → ¬v.Void) ∧
      ∀ nb, s.pftLocate addr DEFAULT_PHB = some nb → ¬s.Empties (s.pft.entry nb).LIBptr v
    else (s.erbLocate LSPid addr = none → ¬v.Void) ∧ ∀ nb, s.erbLocate LSPid addr = some nb → ¬s.Empties (s.erb.entry nb).LIBptr v
  | .lspRelease addr LSPid v =>
    if LSPid = DEFAULT_PHB then ∀ nb, s.pftLocate addr DEFAULT_PHB = some nb → s.Empties (s.pft.entry nb).LIBptr v →
      ¬s.Referred (s.pft.entry nb).LIBptr fun _ => True
    else ∀ nb, s.erbLocate LSPid addr = some nb → s.Empties (s.erb.entry nb).LIBptr v → ¬s.Referred (s.erb.entry nb).LIBptr (· ≠ nb)
  | .erLspBinding FEC PHB _ => s.Room FEC PHB
  | .erLspStacking _ _ _ _ => True
  | .flowAggregation fineFEC finePHB _ _ => s.Room fineFEC finePHB
  | .aPathBinding _ _ _ _ => True

variable {s t u : MPLSAddressClassifier} {ptr : ℤ} {v : Labels} {lib : UsedArray LIBEntry} {nb : ℕ}

theorem alive_none (lib : UsedArray LIBEntry) : Alive lib (-1) := fun low => absurd low (by decide)

/-- Entries keep being what they are, unless they are released. -/
theorem Alive.congr (alive : Alive s.lib ptr) (points : Points s.lib.nb ptr)
    (same : ∀ i < s.lib.nb, (lib.entry i).Released → (s.lib.entry i).Released) : Alive lib ptr := by
  intro low released
  exact alive low (same ptr.toNat (by have := points.2; omega) released)

namespace Clean

/-- No further entry of the LIB is released. -/
theorem withLib (clean : Clean s) (sound : Sound s) (same : ∀ i < s.lib.nb, (lib.entry i).Released → (s.lib.entry i).Released)
    (all : lib.All fun e => Alive s.lib e.LIBptr ∧ Points s.lib.nb e.LIBptr) : Clean { s with lib } where
  pft i inUse live := ⟨((clean.pft i inUse live).1).congr (sound.pft i inUse).1 same, ((clean.pft i inUse live).2).congr (sound.pft i inUse).2.1 same⟩
  erb i inUse live := (clean.erb i inUse live).congr (sound.erb i inUse).1 same
  lib i inUse := (all i inUse).1.congr (all i inUse).2 same

theorem libInsert (clean : Clean s) (sound : Sound s) (v : Labels) : Clean (s.libInsert v).1 := by
  rw [MPLSAddressClassifier.libInsert]
  split_ifs with full
  · exact clean
  · refine clean.withLib sound (fun i inUse released => ?_) ?_
    · rwa [UsedArray.push_old inUse] at released
    · have known : s.lib.All fun e => Alive s.lib e.LIBptr ∧ Points s.lib.nb e.LIBptr := fun i inUse => ⟨clean.lib i inUse, sound.lib i inUse⟩
      exact known.push ⟨alive_none _, points_none _⟩

theorem negative_of_atLeast {x : ℤ} (none : atLeast x = -1) : x < 0 := by
  rw [atLeast] at none
  split_ifs at none with negative
  · exact negative
  · omega

/-- The new entry of the LIB has a number. -/
theorem libInsert_alive (solid : ¬v.Void) (room : s.lib.nb ≠ MaxLIBEntryNB - 1) : Alive (s.libInsert v).1.lib s.lib.nb := by
  intro _ released
  rw [MPLSAddressClassifier.libInsert, if_neg room, Int.toNat_natCast, UsedArray.push_new] at released
  exact solid ⟨negative_of_atLeast released.1, negative_of_atLeast released.2.1, negative_of_atLeast released.2.2.1,
    negative_of_atLeast released.2.2.2⟩

theorem pftInsert (clean : Clean s) {FEC PHB : ℤ} (alive : Alive s.lib ptr) (done : s.pftInsert FEC PHB ptr = some t) : Clean t := by
  rw [MPLSAddressClassifier.pftInsert] at done
  split_ifs at done
  cases done
  exact ⟨clean.pft.push fun _ => ⟨alive, alive_none _⟩, clean.erb, clean.lib⟩

theorem erbInsert (clean : Clean s) {LSPid FEC : ℤ} (alive : Alive s.lib ptr) (done : s.erbInsert LSPid FEC ptr = some t) : Clean t := by
  rw [MPLSAddressClassifier.erbInsert] at done
  split_ifs at done
  cases done
  exact ⟨clean.pft, clean.erb.push fun _ => alive, clean.lib⟩

/-- A change of entries of the PFT. -/
theorem withPft (clean : Clean s) {pft : UsedArray PFTEntry}
    (all : pft.All fun e => e.FEC ≠ -1 → Alive s.lib e.LIBptr ∧ Alive s.lib e.aPATHptr) : Clean { s with pft } :=
  ⟨all, clean.erb, clean.lib⟩

theorem reroute (clean : Clean s) {addr : ℤ} (alive : Alive s.lib ptr) : Clean (s.reroute addr nb ptr) := by
  have own : (s.pft.modify nb fun e => { e with aPATHptr := ptr }).All fun e => e.FEC ≠ -1 → Alive s.lib e.LIBptr ∧ Alive s.lib e.aPATHptr :=
    clean.pft.modify fun known live => ⟨(known live).1, alive⟩
  refine clean.withPft (own.map fun e known => ?_)
  split_ifs
  · exact fun live => ⟨(known live).1, alive⟩
  · exact known

theorem libUpdate (clean : Clean s) (sound : Sound s) (done : s.libUpdate ptr v = some t) (solid : ¬s.Empties ptr v) : Clean t := by
  obtain ⟨lib, written, rfl⟩ := Option.map_eq_some_iff.mp done
  obtain ⟨j, rfl, inUse, rfl⟩ := UsedArray.write_eq_some written
  rw [Empties, Int.toNat_natCast] at solid
  have known : s.lib.All fun e => Alive s.lib e.LIBptr ∧ Points s.lib.nb e.LIBptr := fun i inUse => ⟨clean.lib i inUse, sound.lib i inUse⟩
  refine clean.withLib sound (fun i _ released => ?_) (known.modify id)
  by_cases here : i = j
  · rw [here, UsedArray.modify_self] at released
    exact absurd released solid
  · rwa [UsedArray.modify_other here] at released

theorem setLIBptr (clean : Clean s) (sound : Sound s) {i : ℤ} (alive : Alive s.lib ptr) (points : Points s.lib.nb ptr)
    (done : s.setLIBptr i ptr = some t) : Clean t := by
  obtain ⟨lib, written, rfl⟩ := Option.map_eq_some_iff.mp done
  obtain ⟨j, rfl, inUse, rfl⟩ := UsedArray.write_eq_some written
  have known : s.lib.All fun e => Alive s.lib e.LIBptr ∧ Points s.lib.nb e.LIBptr := fun i inUse => ⟨clean.lib i inUse, sound.lib i inUse⟩
  refine clean.withLib sound (fun i _ released => ?_) (known.modify fun _ => ⟨alive, points⟩)
  by_cases here : i = j
  · rw [here, UsedArray.modify_self] at released
    exact here ▸ released
  · rwa [UsedArray.modify_other here] at released

theorem attached (clean : Clean s) (sound : Sound s) {FEC PHB : ℤ} (alive : Alive s.lib ptr) (points : Points s.lib.nb ptr)
    (attached : Attached s FEC PHB ptr t) : Clean t := by
  cases attached with
  | inserted absent done => exact clean.pftInsert alive done
  | linked nb located done => exact clean.setLIBptr sound alive points done

theorem located (clean : Clean s) {FEC PHB : ℤ} (located : s.pftLocate FEC PHB = some nb) : Alive s.lib (s.pft.entry nb).LIBptr := by
  obtain ⟨inUse, positive, here, _⟩ := pftLocate_some located
  exact (clean.pft nb inUse (by omega)).1

/-- An entry of the ERB that is not live has no pointer. -/
theorem located_erb (clean : Clean s) (sound : Sound s) {LSPid FEC : ℤ} (located : s.erbLocate LSPid FEC = some nb) :
    Alive s.lib (s.erb.entry nb).LIBptr := by
  obtain ⟨inUse, here⟩ := erbLocate_some located
  intro low
  exact clean.erb nb inUse ((sound.erb nb inUse).2.mpr low) low

end Clean

/-- What the table looks like when an entry has been released. -/
theorem libIsDeleted_true (asked : t.libIsDeleted ptr = some (u, true)) : (t.lib.entry ptr.toNat).Released ∧
    u = { t with lib := (t.lib.modify ptr.toNat fun e => { e with LIBptr := -1 }).map fun e => e.unlink ptr } := by
  obtain ⟨e, found, answer⟩ := Option.map_eq_some_iff.mp asked
  obtain ⟨j, rfl, _, rfl⟩ := UsedArray.read_eq_some.mp found
  split_ifs at answer with released
  · cases answer
    exact ⟨by rwa [Int.toNat_natCast], rfl⟩
  · cases answer

theorem not_released_of_kept (asked : t.libIsDeleted ptr = some (t, false)) : ¬(t.lib.entry ptr.toNat).Released := by
  obtain ⟨e, found, answer⟩ := Option.map_eq_some_iff.mp asked
  obtain ⟨j, rfl, _, rfl⟩ := UsedArray.read_eq_some.mp found
  split_ifs at answer with released
  · exact absurd (show true = false from congrArg Prod.snd answer) (by decide)
  · rwa [Int.toNat_natCast]

/-- The update has made the entry what it is. -/
theorem libUpdate_entry (updated : s.libUpdate ptr v = some t) : t.lib.entry ptr.toNat = (s.lib.entry ptr.toNat).update v := by
  obtain ⟨lib, written, rfl⟩ := Option.map_eq_some_iff.mp updated
  obtain ⟨j, rfl, inUse, rfl⟩ := UsedArray.write_eq_some written
  rw [Int.toNat_natCast, UsedArray.modify_self]

theorem LIBEntry.unlink_released {e : LIBEntry} {i : ℤ} : (e.unlink i).Released ↔ e.Released := by
  rw [LIBEntry.unlink]
  split_ifs <;> exact Iff.rfl

section Release

variable (clean : Clean s) (sound : Sound s) (updated : s.libUpdate ptr v = some t) (asked : t.libIsDeleted ptr = some (u, true))

include updated asked

theorem released_empties : s.Empties ptr v := by
  rw [Empties, ← libUpdate_entry updated]
  exact (libIsDeleted_true asked).1

/-- The other tables are as they were, and no other entry of the LIB is released. -/
theorem released_spec : u.pft = s.pft ∧ u.erb = s.erb ∧ u.lib.nb = s.lib.nb ∧
    ∀ q, q ≠ ptr → 0 ≤ q → ((u.lib.entry q.toNat).Released ↔ (s.lib.entry q.toNat).Released) := by
  obtain ⟨_, rfl⟩ := libIsDeleted_true asked
  obtain ⟨lib, written, rfl⟩ := Option.map_eq_some_iff.mp updated
  obtain ⟨j, rfl, inUse, rfl⟩ := UsedArray.write_eq_some written
  refine ⟨rfl, rfl, rfl, fun q apart low => ?_⟩
  have other : q.toNat ≠ j := by omega
  show (LIBEntry.unlink _ _).Released ↔ _
  rw [LIBEntry.unlink_released, Int.toNat_natCast, UsedArray.modify_other other, UsedArray.modify_other other]

theorem released_alive {q : ℤ} (alive : Alive s.lib q) (apart : q ≠ ptr) : Alive u.lib q :=
  fun low released => alive low (((released_spec updated asked).2.2.2 q apart low).mp released)

include clean

/-- No link leads to the released entry any more. -/
theorem released_links : u.lib.All fun e => Alive u.lib e.LIBptr := by
  have alive := fun {q : ℤ} => released_alive updated asked (q := q)
  obtain ⟨_, rfl⟩ := libIsDeleted_true asked
  obtain ⟨lib, written, rfl⟩ := Option.map_eq_some_iff.mp updated
  obtain ⟨j, rfl, inUse, rfl⟩ := UsedArray.write_eq_some written
  intro i inUse
  show Alive _ (LIBEntry.unlink _ _).LIBptr
  rw [LIBEntry.unlink]
  split_ifs with linked
  · exact alive_none _
  · by_cases here : i = (j : ℤ).toNat
    · rw [here, UsedArray.modify_self]
      exact alive_none _
    · rw [UsedArray.modify_other here] at linked ⊢
      rw [Int.toNat_natCast] at here
      rw [UsedArray.modify_other here] at linked ⊢
      exact alive (clean.lib i inUse) linked

/-- The FECs bound to the released LSP are gone. -/
theorem released_pft (unreferred : ¬∃ i < s.pft.nb, (s.pft.entry i).FEC ≠ -1 ∧ (s.pft.entry i).LIBptr ≠ ptr ∧ (s.pft.entry i).aPATHptr = ptr) :
    (u.pftDeleteLIBptr ptr).pft.All fun e => e.FEC ≠ -1 → Alive u.lib e.LIBptr ∧ Alive u.lib e.aPATHptr := by
  intro i inUse
  have pft := (released_spec updated asked).1
  have known := clean.pft i (pft ▸ inUse)
  have row : (u.pftDeleteLIBptr ptr).pft.entry i =
      if (s.pft.entry i).LIBptr = ptr then { s.pft.entry i with FEC := -1, PHB := -1, LIBptr := -1 } else s.pft.entry i := by
    rw [MPLSAddressClassifier.pftDeleteLIBptr, pft]
    rfl
  rw [row]
  split_ifs with bound
  · exact fun live => absurd rfl live
  · intro live
    have apart : (s.pft.entry i).aPATHptr ≠ ptr := fun same => unreferred ⟨i, pft ▸ inUse, live, bound, same⟩
    exact ⟨released_alive updated asked (known live).1 bound, released_alive updated asked (known live).2 apart⟩

end Release

theorem Clean.of_change (clean : Clean s) (sound : Sound s) {c : Command} (careful : s.Careful c) (change : Change s c t) : Clean t := by
  cases change with
  | nothing => exact clean
  | newFEC around addr v t absent room inserted =>
    rw [Careful, if_pos rfl] at careful
    exact (clean.libInsert sound v).pftInsert (Clean.libInsert_alive (careful.2.1 absent) room) inserted
  | updateFEC around addr v t nb located updated =>
    rw [Careful, if_pos rfl] at careful
    exact clean.libUpdate sound updated (careful.2.2 nb located)
  | reroute around addr v nb located up =>
    refine (clean.libInsert sound v).reroute ?_
    by_cases new : (s.libInsert v).2 > -1
    · obtain ⟨room, ptr⟩ := libInsert_new new
      rw [ptr]
      exact Clean.libInsert_alive (fun void => absurd void.2.2.1 (by omega)) room
    · exact fun low => absurd low (by omega)
  | newLSP around addr LSPid v t er absent room inserted =>
    rw [Careful, if_neg er] at careful
    exact (clean.libInsert sound v).erbInsert (Clean.libInsert_alive (careful.1 absent) room) inserted
  | updateLSP around addr LSPid v t nb er located updated =>
    rw [Careful, if_neg er] at careful
    exact clean.libUpdate sound updated (careful.2 nb located)
  | keptFEC addr v t nb located updated asked =>
    refine clean.libUpdate sound updated ?_
    rw [Empties, ← libUpdate_entry updated]
    exact not_released_of_kept asked
  | releasedFEC addr v t u nb located updated asked =>
    rw [Careful, if_pos rfl] at careful
    have unreferred := careful nb located (released_empties updated asked)
    rw [Referred, not_or] at unreferred
    obtain ⟨_, erb, _, _⟩ := released_spec updated asked
    have pft := released_pft clean updated asked unreferred.1
    have links := released_links clean updated asked
    refine ⟨pft, fun i inUse live => ?_, links⟩
    have inUse' : i < s.erb.nb := erb ▸ inUse
    have live' : (s.erb.entry i).LSPid ≠ -1 := erb ▸ live
    have same : ((u.pftDeleteLIBptr (s.pft.entry nb).LIBptr).erb.entry i) = s.erb.entry i := congrArg (UsedArray.entry · i) erb
    rw [same]
    exact released_alive updated asked (clean.erb i inUse' live') fun same => unreferred.2 ⟨i, inUse', trivial, live', same⟩
  | keptLSP addr LSPid v t nb er located updated asked =>
    refine clean.libUpdate sound updated ?_
    rw [Empties, ← libUpdate_entry updated]
    exact not_released_of_kept asked
  | releasedLSP addr LSPid v t u nb er located updated asked =>
    rw [Careful, if_neg er] at careful
    have unreferred := careful nb located (released_empties updated asked)
    rw [Referred, not_or] at unreferred
    obtain ⟨_, erb, _, _⟩ := released_spec updated asked
    have pft := released_pft clean updated asked unreferred.1
    have links := released_links clean updated asked
    refine ⟨pft, fun i inUse live => ?_, links⟩
    have inUse' : i < s.erb.nb := erb ▸ inUse
    have row : ((u.erbDelete nb).pftDeleteLIBptr (s.erb.entry nb).LIBptr).erb.entry i =
        (s.erb.modify nb fun _ => ⟨-1, -1, -1⟩).entry i := by
      rw [← erb]
      rfl
    rw [row] at live ⊢
    by_cases own : i = nb
    · rw [own, UsedArray.modify_self] at live
      exact absurd rfl live
    · rw [UsedArray.modify_other own] at live ⊢
      exact released_alive updated asked (clean.erb i inUse' live) fun same => unreferred.2 ⟨i, inUse', own, live, same⟩
  | bound FEC PHB LSPid t nb lsp low attached =>
    exact clean.attached sound (clean.located_erb sound lsp) (sound.located_erb lsp).1 attached
  | stacked erFEC0 erLSPid0 erFEC erLSPid t nb0 nb under lsp low done =>
    exact clean.setLIBptr sound (clean.located_erb sound lsp) (sound.located_erb lsp).1 done
  | aggregated fineFEC finePHB coarseFEC coarsePHB t nb coarse attached =>
    exact clean.attached sound (clean.located coarse) (points_of_nonneg (sound.located coarse).1 (sound.located coarse).2) attached
  | aPath FEC PHB erFEC LSPid entrynb nb located lsp =>
    exact clean.withPft (clean.pft.modify fun known live => ⟨(known live).1, clean.located_erb sound lsp⟩)

theorem clean_make (pft : ℕ → PFTEntry) (erb : ℕ → ERBEntry) (lib : ℕ → LIBEntry) : Clean (make pft erb lib) where
  pft _ inUse := absurd inUse (Nat.not_lt_zero _)
  erb _ inUse := absurd inUse (Nat.not_lt_zero _)
  lib _ inUse := absurd inUse (Nat.not_lt_zero _)

section Progress

variable {FEC PHB LSPid addr erFEC : ℤ} {around : Surroundings} {i : ℤ}

theorem pftInsert_some (room : s.pft.nb < MaxPFTEntryNB) : (s.pftInsert FEC PHB ptr).isSome := by
  rw [pftInsert, if_pos room]
  rfl

theorem libUpdate_some (low : 0 ≤ i) (high : i < s.lib.nb) : (s.libUpdate i v).isSome := by
  rw [libUpdate, UsedArray.write_of_lt low high]
  rfl

theorem setLIBptr_some (low : 0 ≤ i) (high : i < s.lib.nb) : (s.setLIBptr i ptr).isSome := by
  rw [setLIBptr, UsedArray.write_of_lt low high]
  rfl

theorem libInsert_pft (s : MPLSAddressClassifier) (v : Labels) : (s.libInsert v).1.pft = s.pft ∧ (s.libInsert v).1.erb = s.erb := by
  rw [libInsert]
  split_ifs <;> exact ⟨rfl, rfl⟩

theorem setupFEC_some (sound : Sound s) (room : s.Room addr DEFAULT_PHB) : (s.setupFEC around addr v).isSome := by
  rw [setupFEC]
  cases located : s.pftLocate addr DEFAULT_PHB with
  | none =>
    simp only
    split_ifs
    · rw [Option.isSome_map]
      exact pftInsert_some ((libInsert_pft s v).1 ▸ room located)
    · rfl
  | some nb =>
    obtain ⟨low, high⟩ := sound.located located
    simp only [if_neg (show ¬(s.pft.entry nb).LIBptr ≤ -1 by omega), UsedArray.read_of_lt low high, Option.bind_some]
    split_ifs
    · rfl
    · rw [Option.isSome_map]
      exact libUpdate_some low high

theorem setupLSP_some (sound : Sound s) : (s.setupLSP addr LSPid v).isSome := by
  have size := sound.erbSize
  have libSize := sound.libSize
  rw [setupLSP]
  cases located : s.erbLocate LSPid addr with
  | none =>
    simp only
    split_ifs
    · rw [Option.isSome_map, erbInsert, (libInsert_pft s v).2, if_pos (by rw [MaxERBEntryNB]; rw [MaxLIBEntryNB] at libSize; omega)]
      rfl
    · rfl
  | some nb =>
    simp only
    split_ifs with known
    · rw [Option.isSome_map]
      exact libUpdate_some (by omega) (sound.located_erb located).1.2
    · rfl
    · rfl

/-- The part that both releases have in common. -/
theorem release_some {β : Type} {f : MPLSAddressClassifier × Bool → β} (low : 0 ≤ i) (high : i < s.lib.nb) :
    ((s.libUpdate i v).bind fun t => (t.libIsDeleted i).map f).isSome := by
  obtain ⟨t, updated⟩ := Option.isSome_iff_exists.mp (libUpdate_some (v := v) low high)
  have size : t.lib.nb = s.lib.nb := by
    obtain ⟨lib, written, rfl⟩ := Option.map_eq_some_iff.mp updated
    obtain ⟨j, _, _, rfl⟩ := UsedArray.write_eq_some written
    rfl
  rw [updated, Option.bind_some, Option.isSome_map, libIsDeleted, UsedArray.read_of_lt low (by rwa [size])]
  rfl

theorem attach_some (low : 0 ≤ i) (high : i < s.lib.nb) : ((chainEnd i).bind fun last => (s.setLIBptr last ptr).map (·, true)).isSome := by
  rw [chainEnd, if_neg (not_lt.mpr low), Option.bind_some, Option.isSome_map]
  exact setLIBptr_some low high

theorem erLspBinding_some (sound : Sound s) (room : s.Room FEC PHB) : (s.erLspBinding FEC PHB erFEC LSPid).isSome := by
  rw [erLspBinding]
  cases s.erbLocate LSPid erFEC with
  | none => rfl
  | some nb =>
    simp only
    split_ifs
    · rfl
    · cases located : s.pftLocate FEC PHB with
      | none =>
        rw [Option.isSome_map]
        exact pftInsert_some (room located)
      | some nb' =>
        obtain ⟨low, high⟩ := sound.located located
        simp only [if_neg (not_lt.mpr low)]
        exact attach_some low high

theorem flowAggregation_some (sound : Sound s) {fineFEC finePHB : ℤ} (room : s.Room fineFEC finePHB) :
    (s.flowAggregation fineFEC finePHB FEC PHB).isSome := by
  rw [flowAggregation]
  cases s.pftLocate FEC PHB with
  | none => rfl
  | some nb =>
    simp only
    split_ifs
    · rfl
    · cases located : s.pftLocate fineFEC finePHB with
      | none =>
        rw [Option.isSome_map]
        exact pftInsert_some (room located)
      | some nb' =>
        obtain ⟨low, high⟩ := sound.located located
        simp only [if_neg (not_lt.mpr low)]
        exact attach_some low high

theorem erLspStacking_some (sound : Sound s) {erFEC0 erLSPid0 : ℤ} : (s.erLspStacking erFEC0 erLSPid0 erFEC LSPid).isSome := by
  rw [erLspStacking]
  cases under : s.erbLocate erLSPid0 erFEC0 with
  | none => rfl
  | some nb0 =>
    cases s.erbLocate LSPid erFEC with
    | none => rfl
    | some nb =>
      simp only
      split_ifs with loose0 loose
      · rfl
      · rfl
      · rw [Option.isSome_map]
        exact setLIBptr_some (not_lt.mp loose0) (sound.located_erb under).1.2

/-- No command reads or writes outside of the tables. -/
theorem Sound.command_some (sound : Sound s) {c : Command} (careful : s.Careful c) : (s.command c).isSome := by
  cases c with
  | lspSetup around addr LSPid v =>
    rw [Careful] at careful
    rw [command]
    split_ifs at careful ⊢ with topology
    · exact setupFEC_some sound careful.1
    · exact setupLSP_some sound
  | lspRelease addr LSPid v =>
    rw [command]
    split_ifs with topology
    · rw [MPLSAddressClassifier.releaseFEC]
      cases located : s.pftLocate addr DEFAULT_PHB with
      | none => rfl
      | some nb => exact release_some (sound.located located).1 (sound.located located).2
    · rw [MPLSAddressClassifier.releaseLSP]
      cases located : s.erbLocate LSPid addr with
      | none => rfl
      | some nb => exact release_some ((sound.located_erb located).2.mp topology) (sound.located_erb located).1.2
  | erLspBinding FEC PHB LSPid => exact erLspBinding_some sound careful
  | erLspStacking erFEC0 erLSPid0 erFEC erLSPid => exact erLspStacking_some sound
  | flowAggregation fineFEC finePHB coarseFEC coarsePHB => exact flowAggregation_some sound careful
  | aPathBinding FEC PHB erFEC LSPid => rfl

end Progress

/-- In careful runs nothing outside of the tables is accessed, the tables stay within their arrays, and no reference to a released
LSP is left. -/
theorem run_clean {pft : ℕ → PFTEntry} {erb : ℕ → ERBEntry} {lib : ℕ → LIBEntry} {commands : List Command}
    (careful : machine.Along Careful (make pft erb lib) commands) : ∃ s outs, machine.run (make pft erb lib) commands = some (s, outs) ∧
      (s.pft.nb ≤ MaxPFTEntryNB ∧ s.erb.nb ≤ MaxERBEntryNB ∧ s.lib.nb ≤ MaxLIBEntryNB) ∧ Sound s ∧ Clean s := by
  have kept (s : MPLSAddressClassifier) (c : Command) (invariant : Sound s ∧ Clean s) (careful : s.Careful c) :
      ∃ t out, machine.step s c = some (t, out) ∧ Sound t ∧ Clean t := by
    obtain ⟨⟨t, out⟩, done⟩ := Option.isSome_iff_exists.mp (invariant.1.command_some careful)
    have change := invariant.1.change done
    exact ⟨t, out, done, invariant.1.of_change change, invariant.2.of_change invariant.1 careful change⟩
  obtain ⟨s, outs, run, sound, clean⟩ :=
    Machine.run_invariant (I := fun s => Sound s ∧ Clean s) kept ⟨sound_make pft erb lib, clean_make pft erb lib⟩ careful
  have size := sound.libSize
  refine ⟨s, outs, run, ⟨sound.pftSize, ?_, size.trans (Nat.sub_le _ _)⟩, sound, clean⟩
  exact (sound.erbSize.trans size).trans (Nat.sub_le _ _)

theorem run_clean_sample : ∃ s outs, machine.run sampleMake [.lspSetup calm 5 1000 ⟨-1, -1, 1, 16⟩] = some (s, outs) ∧
    (s.pft.nb ≤ MaxPFTEntryNB ∧ s.erb.nb ≤ MaxERBEntryNB ∧ s.lib.nb ≤ MaxLIBEntryNB) ∧ Sound s ∧ Clean s := by
  refine run_clean (Machine.along_singleton ?_)
  rw [Careful, if_neg (by decide)]
  exact ⟨fun _ void => absurd void.2.2.1 (by decide), fun nb located => by cases located⟩

/-- An LSP is released that a live FEC has as its alternative path. -/
theorem alternative_dangles : ∃ s outs, machine.run sampleMake [.lspSetup calm 5 (-1) ⟨-1, -1, 1, 16⟩, .lspSetup calm 7 1000 ⟨-1, -1, 2, 17⟩,
      .aPathBinding 5 (-1) 7 1000, .lspRelease 7 1000 ⟨-1, -1, -1, -1⟩] = some (s, outs) ∧
    (s.pft.entry 0).FEC = 5 ∧ (s.pft.entry 0).aPATHptr = 1 ∧ (s.lib.entry 1).Released ∧ ¬Clean s := by
  have known : (machine.run sampleMake [.lspSetup calm 5 (-1) ⟨-1, -1, 1, 16⟩, .lspSetup calm 7 1000 ⟨-1, -1, 2, 17⟩,
      .aPathBinding 5 (-1) 7 1000, .lspRelease 7 1000 ⟨-1, -1, -1, -1⟩]).map (fun answer =>
        decide (answer.1.pft.nb = 1 ∧ (answer.1.pft.entry 0).FEC = 5 ∧ (answer.1.pft.entry 0).aPATHptr = 1 ∧ (answer.1.lib.entry 1).Released)) =
      some true := by decide
  obtain ⟨⟨s, outs⟩, run, held⟩ := Option.map_eq_some_iff.mp known
  obtain ⟨size, fec, path, released⟩ := of_decide_eq_true held
  refine ⟨s, outs, run, fec, path, released, fun clean => ?_⟩
  have inUse : 0 < s.pft.nb := Nat.lt_of_lt_of_eq Nat.one_pos size.symm
  have alive := (clean.pft 0 inUse (by rw [fec]; decide)).2
  rw [path] at alive
  exact alive (by decide) released

end MPLSAddressClassifier

end Ns2
