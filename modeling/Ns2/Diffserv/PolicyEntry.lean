import Mathlib.Data.NNRat.Defs
import Mathlib.Algebra.Order.Field.Rat

namespace Ns2

/-- The indices of the policies in `policy_pool`. -/
inductive PolicyIndex
  | null
  | TSW2CM
  | TSW3CM
  | TB
  | SRTCM
  | TRTCM
  | SFD
  | EW
  | DEWP
deriving DecidableEq

inductive PolicerType
  | nullPolicer
  | TSW2CMPolicer
  | TSW3CMPolicer
  | tokenBucketPolicer
  | srTCMPolicer
  | trTCMPolicer
  | SFDPolicer
  | EWPolicer
  | DEWPPolicer
deriving DecidableEq

inductive MeterType
  | nullMeter
  | tswTagger
  | tokenBucketMeter
  | srTCMMeter
  | trTCMMeter
  | sfdTagger
  | ewTagger
  | dewpTagger
deriving DecidableEq

structure PolicyTableEntry where
  sourceNode : ℤ
  destNode : ℤ
  policyIndex : PolicyIndex
  policer : PolicerType
  meter : MeterType
  codePt : ℤ
  cir : ℚ
  cbs : ℚ
  cBucket : ℚ
  ebs : ℚ
  eBucket : ℚ
  pir : ℚ
  pbs : ℚ
  pBucket : ℚ
  arrivalTime : ℚ
  avgRate : ℚ
  winLen : ℚ

structure PolicerTableEntry where
  policer : PolicerType
  initialCodePt : ℤ
  downgrade1 : ℤ
  downgrade2 : ℤ
  policyIndex : PolicyIndex

/-- The field of the policer entry that `applyPolicer` returns. -/
inductive Mark
  | initialCodePt
  | downgrade1
  | downgrade2
deriving DecidableEq

def PolicerTableEntry.codePoint (policer : PolicerTableEntry) : Mark → ℤ
  | .initialCodePt => policer.initialCodePt
  | .downgrade1 => policer.downgrade1
  | .downgrade2 => policer.downgrade2

namespace NullPolicy

def applyMeter (now : ℚ) (policy : PolicyTableEntry) : PolicyTableEntry := { policy with arrivalTime := now }

def applyPolicer (policy : PolicyTableEntry) : PolicyTableEntry × Mark := (policy, .initialCodePt)

end NullPolicy

/-- `TSW2CMPolicy::applyMeter` and `TSW3CMPolicy::applyMeter`. -/
def tswMeter (now : ℚ) (size : ℕ) (policy : PolicyTableEntry) : PolicyTableEntry :=
  let bytesInTSW := policy.avgRate * policy.winLen
  let newBytes := bytesInTSW + size
  { policy with avgRate := newBytes / (now - policy.arrivalTime + policy.winLen), arrivalTime := now }

namespace TSW2CMPolicy

def applyMeter (now : ℚ) (size : ℕ) (policy : PolicyTableEntry) : PolicyTableEntry := tswMeter now size policy

/-- `uniform` is what `Random::uniform(0.0, 1.0)` gives. -/
def applyPolicer (uniform : ℚ) (policy : PolicyTableEntry) : PolicyTableEntry × Mark :=
  if policy.avgRate > policy.cir ∧ uniform ≤ 1 - policy.cir / policy.avgRate then (policy, .downgrade1) else (policy, .initialCodePt)

end TSW2CMPolicy

namespace TSW3CMPolicy

def applyMeter (now : ℚ) (size : ℕ) (policy : PolicyTableEntry) : PolicyTableEntry := tswMeter now size policy

def applyPolicer (uniform : ℚ) (policy : PolicyTableEntry) : PolicyTableEntry × Mark :=
  let rand := policy.avgRate * (1 - uniform)
  if rand > policy.pir then (policy, .downgrade2)
  else if rand > policy.cir then (policy, .downgrade1)
  else (policy, .initialCodePt)

end TSW3CMPolicy

namespace TBPolicy

def applyMeter (now : ℚ) (policy : PolicyTableEntry) : PolicyTableEntry :=
  let tokenBytes := policy.cir * (now - policy.arrivalTime)
  let cBucket := if policy.cBucket + tokenBytes ≤ policy.cbs then policy.cBucket + tokenBytes else policy.cbs
  { policy with cBucket := cBucket, arrivalTime := now }

def applyPolicer (size : ℕ) (policy : PolicyTableEntry) : PolicyTableEntry × Mark :=
  if policy.cBucket - size ≥ 0 then ({ policy with cBucket := policy.cBucket - size }, .initialCodePt) else (policy, .downgrade1)

end TBPolicy

namespace SRTCMPolicy

def applyMeter (now : ℚ) (policy : PolicyTableEntry) : PolicyTableEntry :=
  let tokenBytes := policy.cir * (now - policy.arrivalTime)
  if policy.cBucket + tokenBytes ≤ policy.cbs then { policy with cBucket := policy.cBucket + tokenBytes, arrivalTime := now }
  else
    let tokenBytes := tokenBytes - (policy.cbs - policy.cBucket)
    let eBucket := if policy.eBucket + tokenBytes ≤ policy.ebs then policy.eBucket + tokenBytes else policy.ebs
    { policy with cBucket := policy.cbs, eBucket := eBucket, arrivalTime := now }

def applyPolicer (size : ℕ) (policy : PolicyTableEntry) : PolicyTableEntry × Mark :=
  if policy.cBucket - size ≥ 0 then ({ policy with cBucket := policy.cBucket - size }, .initialCodePt)
  else if policy.eBucket - size ≥ 0 then ({ policy with eBucket := policy.eBucket - size }, .downgrade1)
  else (policy, .downgrade2)

end SRTCMPolicy

namespace TRTCMPolicy

def applyMeter (now : ℚ) (policy : PolicyTableEntry) : PolicyTableEntry :=
  let tokenBytes := policy.cir * (now - policy.arrivalTime)
  let cBucket := if policy.cBucket + tokenBytes ≤ policy.cbs then policy.cBucket + tokenBytes else policy.cbs
  let tokenBytes := policy.pir * (now - policy.arrivalTime)
  let pBucket := if policy.pBucket + tokenBytes ≤ policy.pbs then policy.pBucket + tokenBytes else policy.pbs
  { policy with cBucket := cBucket, pBucket := pBucket, arrivalTime := now }

def applyPolicer (size : ℕ) (policy : PolicyTableEntry) : PolicyTableEntry × Mark :=
  if policy.pBucket - size < 0 then (policy, .downgrade2)
  else if policy.cBucket - size < 0 then ({ policy with pBucket := policy.pBucket - size }, .downgrade1)
  else ({ policy with cBucket := policy.cBucket - size, pBucket := policy.pBucket - size }, .initialCodePt)

end TRTCMPolicy

/-- What is given to `addPolicyEntry` and `addPolicerEntry` for one of the policies. Rates are in bits per second. -/
inductive PolicyArgs
  /-- `Null` or `Dumb`. -/
  | null
  | TSW2CM (cir : ℚ≥0) (winLen : Option ℚ)
  | TSW3CM (cir pir : ℚ≥0)
  | tokenBucket (cir cbs : ℚ≥0)
  | srTCM (cir cbs ebs : ℚ≥0)
  | trTCM (cir cbs pir pbs : ℚ≥0)
  | SFD (threshold : ℤ)
  /-- The parameters of the two go to the policy itself. -/
  | EW
  | DEWP

/-- A place of the table in memory that holds only zeros. -/
def PolicyTableEntry.blank : PolicyTableEntry where
  sourceNode := 0
  destNode := 0
  policyIndex := .null
  policer := .nullPolicer
  meter := .nullMeter
  codePt := 0
  cir := 0
  cbs := 0
  cBucket := 0
  ebs := 0
  eBucket := 0
  pir := 0
  pbs := 0
  pBucket := 0
  arrivalTime := 0
  avgRate := 0
  winLen := 0

def PolicerTableEntry.blank : PolicerTableEntry := ⟨.nullPolicer, 0, 0, 0, .null⟩

/-- The entry that `addPolicyEntry` makes of a place of the table. -/
def PolicyTableEntry.filled (source dest codePt : ℤ) (args : PolicyArgs) (slot : PolicyTableEntry) : PolicyTableEntry :=
  let entry := { slot with sourceNode := source, destNode := dest, codePt := codePt, arrivalTime := 0, winLen := 1 }
  match args with
  | .null => { entry with policyIndex := .null, policer := .nullPolicer, meter := .nullMeter }
  | .TSW2CM cir winLen =>
    { entry with
      policyIndex := .TSW2CM, policer := .TSW2CMPolicer, meter := .tswTagger
      cir := cir / 8, avgRate := cir / 8, winLen := winLen.getD 1 }
  | .TSW3CM cir pir =>
    { entry with
      policyIndex := .TSW3CM, policer := .TSW3CMPolicer, meter := .tswTagger
      cir := cir / 8, avgRate := cir / 8, pir := pir / 8 }
  | .tokenBucket cir cbs =>
    { entry with
      policyIndex := .TB, policer := .tokenBucketPolicer, meter := .tokenBucketMeter
      cir := cir / 8, avgRate := cir / 8, cbs := cbs, cBucket := cbs }
  | .srTCM cir cbs ebs =>
    { entry with
      policyIndex := .SRTCM, policer := .srTCMPolicer, meter := .srTCMMeter
      cir := cir / 8, avgRate := cir / 8, cbs := cbs, cBucket := cbs, ebs := ebs, eBucket := ebs }
  | .trTCM cir cbs pir pbs =>
    { entry with
      policyIndex := .TRTCM, policer := .trTCMPolicer, meter := .trTCMMeter
      cir := cir / 8, avgRate := cir / 8, cbs := cbs, cBucket := cbs, pir := pir / 8, pbs := pbs, pBucket := pbs }
  | .SFD threshold => { entry with policyIndex := .SFD, policer := .SFDPolicer, meter := .sfdTagger, cir := threshold }
  | .EW => { entry with policyIndex := .EW, policer := .EWPolicer, meter := .ewTagger }
  | .DEWP => { entry with policyIndex := .DEWP, policer := .DEWPPolicer, meter := .dewpTagger }

end Ns2
