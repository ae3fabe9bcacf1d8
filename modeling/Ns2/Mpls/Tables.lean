import Ns2.Library.Machine
import Ns2.Library.UsedArray
import Mathlib.Algebra.Order.Group.Unbundled.Int

namespace Ns2

namespace MPLS

def MaxPFTEntryNB : ℕ := 100
def MaxLIBEntryNB : ℕ := 100
def MaxERBEntryNB : ℕ := 100
def DEFAULT_PHB : ℤ := -1
def DONTCARE : ℤ := -77
def MAKENEWLSP : ℤ := 2

structure PFTEntry where
  FEC : ℤ
  PHB : ℤ
  LIBptr : ℤ
  aPATHptr : ℤ

structure ERBEntry where
  LSPid : ℤ
  FEC : ℤ
  LIBptr : ℤ

structure LIBEntry where
  iIface : ℤ
  iLabel : ℤ
  oIface : ℤ
  oLabel : ℤ
  LIBptr : ℤ

/-- The four numbers that a command gives for an entry of the LIB. -/
structure Labels where
  iIface : ℤ
  iLabel : ℤ
  oIface : ℤ
  oLabel : ℤ

/-- What a command finds: the variables of the classifier that it reads, and the links. -/
structure Surroundings where
  enableReroute : ℤ
  rerouteOption : ℤ
  isLinkDown : ℤ → Bool

end MPLS

open MPLS

structure MPLSAddressClassifier where
  pft : UsedArray PFTEntry
  erb : UsedArray ERBEntry
  lib : UsedArray LIBEntry

namespace MPLSAddressClassifier

variable (s : MPLSAddressClassifier)

/-- `none` is a write outside of the table, here and below. -/
def pftInsert (FEC PHB LIBptr : ℤ) : Option MPLSAddressClassifier :=
  if s.pft.nb < MaxPFTEntryNB then some { s with pft := s.pft.push ⟨FEC, PHB, LIBptr, -1⟩ } else none

def pftDeleteLIBptr (LIBptr : ℤ) : MPLSAddressClassifier :=
  { s with pft := s.pft.map fun e => if e.LIBptr = LIBptr then { e with FEC := -1, PHB := -1, LIBptr := -1 } else e }

def pftUpdate (entrynb : ℕ) (LIBptr : ℤ) : MPLSAddressClassifier := { s with pft := s.pft.modify entrynb fun e => { e with LIBptr } }

def pftLocate (FEC PHB : ℤ) : Option ℕ := if FEC < 0 then none else s.pft.locate fun e => e.FEC = FEC ∧ e.PHB = PHB

def erbInsert (LSPid FEC LIBptr : ℤ) : Option MPLSAddressClassifier :=
  if s.erb.nb < MaxERBEntryNB then some { s with erb := s.erb.push ⟨LSPid, FEC, LIBptr⟩ } else none

def erbDelete (entrynb : ℕ) : MPLSAddressClassifier := { s with erb := s.erb.modify entrynb fun _ => ⟨-1, -1, -1⟩ }

def erbUpdate (entrynb : ℕ) (LIBptr : ℤ) : MPLSAddressClassifier := { s with erb := s.erb.modify entrynb fun e => { e with LIBptr } }

/-- The FEC makes no difference. -/
def erbLocate (LSPid _FEC : ℤ) : Option ℕ := s.erb.locate fun e => e.LSPid = LSPid

/-- A negative number counts as -1. -/
def atLeast (x : ℤ) : ℤ := if x < 0 then -1 else x

def libInsert (v : Labels) : MPLSAddressClassifier × ℤ :=
  if s.lib.nb = MaxLIBEntryNB - 1 then (s, -1)
  else ({ s with lib := s.lib.push ⟨atLeast v.iIface, atLeast v.iLabel, atLeast v.oIface, atLeast v.oLabel, -1⟩ }, s.lib.nb)

end MPLSAddressClassifier

namespace MPLS

/-- The LSP of the entry was released. -/
def LIBEntry.Released (e : LIBEntry) : Prop := e.iIface = -1 ∧ e.iLabel = -1 ∧ e.oIface = -1 ∧ e.oLabel = -1

instance (e : LIBEntry) : Decidable e.Released := inferInstanceAs (Decidable (_ ∧ _))

def LIBEntry.unlink (e : LIBEntry) (entrynb : ℤ) : LIBEntry := if e.LIBptr = entrynb then { e with LIBptr := -1 } else e

def LIBEntry.update (e : LIBEntry) (v : Labels) : LIBEntry where
  iIface := if v.iIface ≠ DONTCARE then v.iIface else e.iIface
  iLabel := if v.iLabel ≠ DONTCARE then v.iLabel else e.iLabel
  oIface := if v.oIface ≠ DONTCARE then v.oIface else e.oIface
  oLabel := if v.oLabel ≠ DONTCARE then v.oLabel else e.oLabel
  LIBptr := e.LIBptr

end MPLS

namespace MPLSAddressClassifier

variable (s : MPLSAddressClassifier)

/-- Deletes the references to a released entry in the LIB. The answer tells whether it was released. -/
def libIsDeleted (entrynb : ℤ) : Option (MPLSAddressClassifier × Bool) :=
  (s.lib.read entrynb).map fun e =>
    if e.Released then
      ({ s with lib := (s.lib.modify entrynb.toNat fun e => { e with LIBptr := -1 }).map fun e => e.unlink entrynb }, true)
    else (s, false)

def libUpdate (entrynb : ℤ) (v : Labels) : Option MPLSAddressClassifier :=
  (s.lib.write entrynb fun e => e.update v).map fun lib => { s with lib }

/-- An assignment to `LIB_.Entry_[entrynb].LIBptr_`. -/
def setLIBptr (entrynb LIBptr : ℤ) : Option MPLSAddressClassifier :=
  (s.lib.write entrynb fun e => { e with LIBptr }).map fun lib => { s with lib }

/-- What the chain of an entry is appended to. The loop `while (i < 0)` would first read an entry of a negative index. -/
def chainEnd (LIBptr : ℤ) : Option ℤ := if LIBptr < 0 then none else some LIBptr

def erLspStacking (erFEC0 erLSPid0 erFEC erLSPid : ℤ) : Option (MPLSAddressClassifier × Bool) :=
  match s.erbLocate erLSPid0 erFEC0, s.erbLocate erLSPid erFEC with
  | some nb0, some nb =>
    if (s.erb.entry nb0).LIBptr < 0 then some (s, false)
    else if (s.erb.entry nb).LIBptr < 0 then some (s, false)
    else (s.setLIBptr (s.erb.entry nb0).LIBptr (s.erb.entry nb).LIBptr).map (·, true)
  | _, _ => some (s, false)

def erLspBinding (FEC PHB erFEC LSPid : ℤ) : Option (MPLSAddressClassifier × Bool) :=
  match s.erbLocate LSPid erFEC with
  | none => some (s, false)
  | some nb =>
    let erLIBptr := (s.erb.entry nb).LIBptr
    if erLIBptr < 0 then some (s, false)
    else match s.pftLocate FEC PHB with
    | none => (s.pftInsert FEC PHB erLIBptr).map (·, true)
    | some nb =>
      let LIBptr := (s.pft.entry nb).LIBptr
      if LIBptr < 0 then some (s.pftUpdate nb LIBptr, true)
      else (chainEnd LIBptr).bind fun last => (s.setLIBptr last erLIBptr).map (·, true)

def flowAggregation (fineFEC finePHB coarseFEC coarsePHB : ℤ) : Option (MPLSAddressClassifier × Bool) :=
  match s.pftLocate coarseFEC coarsePHB with
  | none => some (s, false)
  | some nb =>
    let cLIBptr := (s.pft.entry nb).LIBptr
    if cLIBptr < 0 then some (s, false)
    else match s.pftLocate fineFEC finePHB with
    | none => (s.pftInsert fineFEC finePHB cLIBptr).map (·, true)
    | some nb =>
      let fLIBptr := (s.pft.entry nb).LIBptr
      if fLIBptr < 0 then some (s.pftUpdate nb cLIBptr, true)
      else (chainEnd fLIBptr).bind fun last => (s.setLIBptr last cLIBptr).map (·, true)

def aPathBinding (FEC PHB erFEC LSPid : ℤ) : MPLSAddressClassifier × Bool :=
  match s.pftLocate FEC PHB, s.erbLocate LSPid erFEC with
  | some entrynb, some nb =>
    ({ s with pft := s.pft.modify entrynb fun e => { e with aPATHptr := (s.erb.entry nb).LIBptr } }, true)
  | _, _ => (s, false)

/-- An alternative path for an entry of the PFT, and for all entries whose LSP goes out at the interface `addr`. -/
def reroute (addr : ℤ) (PFTnb : ℕ) (aPATHptr : ℤ) : MPLSAddressClassifier :=
  { s with pft := (s.pft.modify PFTnb fun e => { e with aPATHptr }).map fun e =>
      if (s.lib.read e.LIBptr).any fun out => out.oIface = addr then { e with aPATHptr } else e }

/-- `LSPsetup` of a topology-based LSP. -/
def setupFEC (around : Surroundings) (addr : ℤ) (v : Labels) : Option (MPLSAddressClassifier × Bool) :=
  let made := s.libInsert v
  match s.pftLocate addr DEFAULT_PHB with
  | none => if made.2 > -1 then (made.1.pftInsert addr DEFAULT_PHB made.2).map (·, true) else some (made.1, false)
  | some nb =>
    let LIBptr := (s.pft.entry nb).LIBptr
    if LIBptr ≤ -1 then if made.2 > -1 then some (made.1.pftUpdate nb made.2, true) else some (made.1, false)
    else (s.lib.read LIBptr).bind fun e =>
      if around.enableReroute = 1 ∧ e.oIface > -1 ∧ around.rerouteOption = MAKENEWLSP ∧ v.oIface > -1 ∧ around.isLinkDown e.oIface then
        some (made.1.reroute addr nb made.2, true)
      else (s.libUpdate LIBptr v).map (·, true)

/-- `LSPsetup` of an ER-LSP. -/
def setupLSP (addr LSPid : ℤ) (v : Labels) : Option (MPLSAddressClassifier × Bool) :=
  let made := s.libInsert v
  match s.erbLocate LSPid addr with
  | none => if made.2 > -1 then (made.1.erbInsert LSPid addr made.2).map (·, true) else some (made.1, false)
  | some nb =>
    let LIBptr := (s.erb.entry nb).LIBptr
    if LIBptr > -1 then (s.libUpdate LIBptr v).map (·, true)
    else if made.2 > -1 then some (made.1.erbUpdate nb made.2, true)
    else some (made.1, false)

/-- `LSPrelease` of a topology-based LSP. -/
def releaseFEC (addr : ℤ) (v : Labels) : Option (MPLSAddressClassifier × Bool) :=
  match s.pftLocate addr DEFAULT_PHB with
  | none => some (s, true)
  | some nb =>
    let LIBptr := (s.pft.entry nb).LIBptr
    (s.libUpdate LIBptr v).bind fun t => (t.libIsDeleted LIBptr).map fun answer =>
      if answer.2 then (answer.1.pftDeleteLIBptr LIBptr, true) else (answer.1, true)

/-- `LSPrelease` of an ER-LSP. -/
def releaseLSP (addr LSPid : ℤ) (v : Labels) : Option (MPLSAddressClassifier × Bool) :=
  match s.erbLocate LSPid addr with
  | none => some (s, true)
  | some nb =>
    let LIBptr := (s.erb.entry nb).LIBptr
    (s.libUpdate LIBptr v).bind fun t => (t.libIsDeleted LIBptr).map fun answer =>
      if answer.2 then ((answer.1.erbDelete nb).pftDeleteLIBptr LIBptr, true) else (answer.1, true)

inductive Command
  | lspSetup (around : Surroundings) (addr LSPid : ℤ) (v : Labels)
  | lspRelease (addr LSPid : ℤ) (v : Labels)
  | erLspBinding (FEC PHB LSPid : ℤ)
  | erLspStacking (erFEC0 erLSPid0 erFEC erLSPid : ℤ)
  | flowAggregation (fineFEC finePHB coarseFEC coarsePHB : ℤ)
  | aPathBinding (FEC PHB erFEC LSPid : ℤ)

/-- The answer is whether the command succeeds. -/
def command : Command → Option (MPLSAddressClassifier × Bool)
  | .lspSetup around addr LSPid v => if LSPid = DEFAULT_PHB then s.setupFEC around addr v else s.setupLSP addr LSPid v
  | .lspRelease addr LSPid v => if LSPid = DEFAULT_PHB then s.releaseFEC addr v else s.releaseLSP addr LSPid v
  | .erLspBinding FEC PHB LSPid => s.erLspBinding FEC PHB (-1) LSPid
  | .erLspStacking erFEC0 erLSPid0 erFEC erLSPid => s.erLspStacking erFEC0 erLSPid0 erFEC erLSPid
  | .flowAggregation fineFEC finePHB coarseFEC coarsePHB => s.flowAggregation fineFEC finePHB coarseFEC coarsePHB
  | .aPathBinding FEC PHB erFEC LSPid => some (s.aPathBinding FEC PHB erFEC LSPid)

def machine : Machine MPLSAddressClassifier Command Bool := ⟨command⟩

/-- Empty tables; what the entries hold that are not in use does not matter. -/
def make (pft : ℕ → PFTEntry) (erb : ℕ → ERBEntry) (lib : ℕ → LIBEntry) : MPLSAddressClassifier := ⟨⟨pft, 0⟩, ⟨erb, 0⟩, ⟨lib, 0⟩⟩

end MPLSAddressClassifier

end Ns2
