import Ns2.Mpls.Binding
import Mathlib.Data.Fintype.EquivFin

namespace Ns2

open MPLS NextChain

namespace MPLS

def GOTO_L3 : ℤ := -99

/-- A shim header of a packet. Its stack of them is a list from the top on. -/
structure Shim where
  label : ℤ
  ttl : ℤ

end MPLS

namespace MPLSAddressClassifier

variable (s : MPLSAddressClassifier) (ttl : ℤ)

/-- `LIBlookup` of a label. -/
def libLookup (iLabel : ℤ) : Option ℕ := if iLabel < 0 then none else s.lib.locate fun e => e.iLabel = iLabel

/-- The outer `none` is a read outside of the LIB, the inner one the answer -1. -/
def pftLookup (FEC PHB : ℤ) : Option (Option LIBEntry) :=
  match s.pftLocate FEC PHB with
  | none => some none
  | some nb => if (s.pft.entry nb).LIBptr < 0 then some none else (s.lib.read (s.pft.entry nb).LIBptr).map some

/-- The loop of `convertL3toL2`, for a number of rounds. -/
def pushIngress : ℕ → List Shim → LIBEntry → Option (List Shim × LIBEntry)
  | 0, _, _ => none
  | rounds + 1, stack, e =>
    if e.oLabel ≥ 0 then
      let stack := if e.oLabel = 0 then stack else ⟨e.oLabel, ttl⟩ :: stack
      if e.LIBptr ≥ 0 then (s.lib.read e.LIBptr).bind fun e => pushIngress rounds stack e else some (stack, e)
    else some (stack, e)

/-- The interface or `MPLS_GOTO_L3`, and the stack. -/
def convertL3toL2 (rounds : ℕ) (stack : List Shim) (e : LIBEntry) : Option (ℤ × List Shim) :=
  (s.pushIngress ttl rounds stack e).map fun out =>
    if out.2.oLabel < 0 then (GOTO_L3, []) else if out.2.oIface < 0 then (GOTO_L3, []) else (out.2.oIface, out.1)

/-- The loop of `convertL2toL2`. -/
def pushTunnel : ℕ → List Shim → LIBEntry → Option (List Shim × LIBEntry)
  | 0, _, _ => none
  | rounds + 1, stack, e =>
    if e.LIBptr ≥ 0 then (s.lib.read e.LIBptr).bind fun e => pushTunnel rounds (⟨e.oLabel, ttl⟩ :: stack) e else some (stack, e)

/-- Pop in the penultimate hop, else swap. -/
def popOrSwap (stack : List Shim) (oLabel : ℤ) : List Shim :=
  if oLabel = 0 then stack.tail else stack.modifyHead fun top => { top with label := oLabel }

def convertL2toL2 (rounds : ℕ) (stack : List Shim) (e : LIBEntry) : Option (ℤ × List Shim) :=
  if e.oLabel < 0 then some (GOTO_L3, [])
  else (s.pushTunnel ttl rounds (popOrSwap stack e.oLabel) e).map fun out =>
    if out.2.oIface < 0 then (GOTO_L3, []) else (out.2.oIface, out.1)

/-- Process unlabeled packet. -/
def processIP (rounds : ℕ) (dst : ℤ) (stack : List Shim) : Option (ℤ × List Shim) :=
  (s.pftLookup dst DEFAULT_PHB).bind fun found => found.elim (some (GOTO_L3, stack)) fun e => s.convertL3toL2 ttl rounds stack e

def checkTTL (top : Shim) (below : List Shim) : List Shim := if top.ttl - 1 = 0 then [] else { top with ttl := top.ttl - 1 } :: below

/-- Process labeled packet. -/
def processLabelP (rounds : ℕ) (top : Shim) (below : List Shim) : Option (ℤ × List Shim) :=
  let stack := checkTTL top below
  if stack.isEmpty then some (GOTO_L3, [])
  else (s.libLookup top.label).elim (some (GOTO_L3, [])) fun nb => s.convertL2toL2 ttl rounds stack (s.lib.entry nb)

/-- `MPLSclassify` of a packet with a destination and a stack of shim headers, if the loops end within the rounds. -/
def mplsClassify (rounds : ℕ) (dst : ℤ) : List Shim → Option (ℤ × List Shim)
  | [] => s.processIP ttl rounds dst []
  | top :: below => (s.processLabelP ttl rounds top below).bind fun ret =>
      if ret.1 = GOTO_L3 then s.processIP ttl rounds dst ret.2 else some ret

/-- An entry in use leads to another by `LIBptr_`. -/
def Link (i j : ℕ) : Prop := i < s.lib.nb ∧ s.next i = some j

def LoopFree : Prop := Acyclic s.Link

variable {s ttl} {e : LIBEntry} {stack : List Shim} {l : List ℕ} {rounds i : ℕ} {dst : ℤ}

theorem Sound.next_lt (sound : Sound s) (inUse : i < s.lib.nb) {j : ℕ} (next : s.next i = some j) : j < s.lib.nb := by
  have points := sound.lib i inUse
  rw [MPLSAddressClassifier.next, target] at next
  split_ifs at next with negative
  cases next
  have high := points.2
  omega

/-- Without a loop, the chain from an entry on ends, and no entry is in it twice. -/
theorem LoopFree.chain (loopFree : s.LoopFree) (sound : Sound s) (inUse : i < s.lib.nb) :
    ∃ l, NextChain.Path s.next (some i) l none ∧ (∀ j ∈ l, j < s.lib.nb) ∧ l.length ≤ s.lib.nb := by
  have acyclic : Acyclic fun i j : Fin s.lib.nb => s.next i = some j.val := by
    intro i cycle
    exact loopFree i.val (Relation.TransGen.lift Fin.val (fun i j next => ⟨i.isLt, next⟩) i i cycle)
  have ends (i : Fin s.lib.nb) : ∃ l, NextChain.Path s.next (some i.val) l none ∧ ∀ j ∈ l, j < s.lib.nb := by
    induction i using acyclic.wellFounded.induction with
    | _ i ih =>
      cases next : s.next i with
      | none => exact ⟨[i.val], ⟨rfl, next⟩, fun j member => List.mem_singleton.mp member ▸ i.isLt⟩
      | some j =>
        obtain ⟨l, path, inside⟩ := ih ⟨j, sound.next_lt i.isLt next⟩ next
        exact ⟨i.val :: l, ⟨rfl, next ▸ path⟩, List.forall_mem_cons.mpr ⟨i.isLt, inside⟩⟩
  obtain ⟨l, path, inside⟩ := ends ⟨i, inUse⟩
  refine ⟨l, path, inside, ?_⟩
  have fewer := (List.subperm_of_subset path.nodup fun j member => List.mem_range.mpr (inside j member)).length_le
  rwa [List.length_range] at fewer

theorem target_eq_none {ptr : ℤ} : target ptr = none ↔ ptr < 0 := by
  unfold target
  split_ifs with negative
  · exact iff_of_true rfl negative
  · exact iff_of_false id negative

theorem target_eq_some {ptr : ℤ} {j : ℕ} : target ptr = some j ↔ ptr = j := by
  rw [target]
  split_ifs with negative
  · exact iff_of_false id (by omega)
  · rw [Option.some.injEq]
    omega

/-- The rest of the chain bounds the rounds of both loops. -/
theorem pushIngress_ends (path : NextChain.Path s.next (target e.LIBptr) l none) (inside : ∀ j ∈ l, j < s.lib.nb) (enough : l.length < rounds) :
    ∃ out, s.pushIngress ttl rounds stack e = some out := by
  induction l generalizing e stack rounds with
  | nil =>
    obtain ⟨k, rfl⟩ : ∃ k, rounds = k + 1 := ⟨rounds - 1, by omega⟩
    have last : ¬e.LIBptr ≥ 0 := not_le.mpr (target_eq_none.mp path)
    rw [pushIngress, if_neg last]
    split_ifs <;> exact ⟨_, rfl⟩
  | cons j l ih =>
    obtain ⟨k, rfl⟩ : ∃ k, rounds = k + 1 := ⟨rounds - 1, by omega⟩
    obtain ⟨first, rest⟩ := List.forall_mem_cons.mp inside
    have ptr := target_eq_some.mp path.1
    rw [pushIngress, ptr, if_pos (Int.natCast_nonneg j), UsedArray.read_natCast first, Option.bind_some]
    split_ifs
    · exact ih path.2 rest (Nat.lt_of_succ_lt_succ enough)
    · exact ih path.2 rest (Nat.lt_of_succ_lt_succ enough)
    · exact ⟨_, rfl⟩

theorem pushTunnel_ends (path : NextChain.Path s.next (target e.LIBptr) l none) (inside : ∀ j ∈ l, j < s.lib.nb) (enough : l.length < rounds) :
    ∃ out, s.pushTunnel ttl rounds stack e = some out := by
  induction l generalizing e stack rounds with
  | nil =>
    obtain ⟨k, rfl⟩ : ∃ k, rounds = k + 1 := ⟨rounds - 1, by omega⟩
    have last : ¬e.LIBptr ≥ 0 := not_le.mpr (target_eq_none.mp path)
    rw [pushTunnel, if_neg last]
    exact ⟨_, rfl⟩
  | cons j l ih =>
    obtain ⟨k, rfl⟩ : ∃ k, rounds = k + 1 := ⟨rounds - 1, by omega⟩
    obtain ⟨first, rest⟩ := List.forall_mem_cons.mp inside
    have ptr := target_eq_some.mp path.1
    rw [pushTunnel, ptr, if_pos (Int.natCast_nonneg j), UsedArray.read_natCast first, Option.bind_some]
    exact ih path.2 rest (Nat.lt_of_succ_lt_succ enough)

theorem convertL3toL2_ends (path : NextChain.Path s.next (target e.LIBptr) l none) (inside : ∀ j ∈ l, j < s.lib.nb) (enough : l.length < rounds) :
    ∃ ret, s.convertL3toL2 ttl rounds stack e = some ret := by
  obtain ⟨out, pushed⟩ : ∃ out, s.pushIngress ttl rounds stack e = some out := pushIngress_ends path inside enough
  rw [convertL3toL2, pushed]
  exact ⟨_, rfl⟩

theorem convertL2toL2_ends (path : NextChain.Path s.next (target e.LIBptr) l none) (inside : ∀ j ∈ l, j < s.lib.nb) (enough : l.length < rounds) :
    ∃ ret, s.convertL2toL2 ttl rounds stack e = some ret := by
  rw [convertL2toL2]
  split_ifs
  · exact ⟨_, rfl⟩
  · obtain ⟨out, pushed⟩ : ∃ out, s.pushTunnel ttl rounds (popOrSwap stack e.oLabel) e = some out := pushTunnel_ends path inside enough
    rw [pushed]
    exact ⟨_, rfl⟩

/-- What follows an entry in use in its chain is shorter than the LIB. -/
theorem LoopFree.rest (loopFree : s.LoopFree) (sound : Sound s) (inUse : i < s.lib.nb) :
    ∃ l, NextChain.Path s.next (target (s.lib.entry i).LIBptr) l none ∧ (∀ j ∈ l, j < s.lib.nb) ∧ l.length < s.lib.nb := by
  obtain ⟨l, path, inside, short⟩ := loopFree.chain sound inUse
  cases l with
  | nil => cases path
  | cons j l =>
    cases path.1
    exact ⟨l, path.2, (List.forall_mem_cons.mp inside).2, short⟩

theorem processIP_ends (loopFree : s.LoopFree) (sound : Sound s) : ∃ ret, s.processIP ttl s.lib.nb dst stack = some ret := by
  rw [processIP, pftLookup]
  cases located : s.pftLocate dst DEFAULT_PHB with
  | none => exact ⟨_, rfl⟩
  | some nb =>
    obtain ⟨low, high⟩ := sound.located located
    obtain ⟨j, ptr⟩ := Int.eq_ofNat_of_zero_le low
    rw [ptr] at high
    have inUse := Int.ofNat_lt.mp high
    obtain ⟨l, path, inside, short⟩ := loopFree.rest sound inUse
    simp only [ptr, UsedArray.read_natCast inUse]
    exact convertL3toL2_ends path inside short

theorem processLabelP_ends (loopFree : s.LoopFree) (sound : Sound s) {top : Shim} {below : List Shim} :
    ∃ ret, s.processLabelP ttl s.lib.nb top below = some ret := by
  rw [processLabelP]
  split_ifs
  · exact ⟨_, rfl⟩
  · cases located : s.libLookup top.label with
    | none => exact ⟨_, rfl⟩
    | some nb =>
      rw [libLookup] at located
      split_ifs at located
      obtain ⟨l, path, inside, short⟩ := loopFree.rest sound (UsedArray.locate_some located).1
      exact convertL2toL2_ends path inside short

/-- Without a loop, as many rounds as the LIB has entries are enough for every packet. -/
theorem mplsClassify_ends (loopFree : s.LoopFree) (sound : Sound s) : ∃ ret, s.mplsClassify ttl s.lib.nb dst stack = some ret := by
  cases stack with
  | nil => exact processIP_ends loopFree sound
  | cons top below =>
    obtain ⟨ret, processed⟩ : ∃ ret, s.processLabelP ttl s.lib.nb top below = some ret := processLabelP_ends loopFree sound
    rw [mplsClassify, processed, Option.bind_some]
    split_ifs
    · exact processIP_ends loopFree sound
    · exact ⟨_, rfl⟩

/-- An entry that leads to itself keeps the loop going. -/
theorem pushTunnel_never (inUse : i < s.lib.nb) (self : (s.lib.entry i).LIBptr = i) :
    s.pushTunnel ttl rounds stack (s.lib.entry i) = none := by
  induction rounds generalizing stack with
  | zero => rfl
  | succ rounds ih =>
    rw [pushTunnel, self, if_pos (Int.natCast_nonneg i), UsedArray.read_natCast inUse, Option.bind_some]
    exact ih

end MPLSAddressClassifier

end Ns2
