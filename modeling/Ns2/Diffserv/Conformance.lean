import Mathlib.Tactic.NormNum
import Ns2.Diffserv.PolicyEntry
import Ns2.Library.Meter

namespace Ns2

/-- What a meter reads of a packet. -/
structure MeteredPacket where
  time : ℚ
  size : ℕ

namespace TBPolicy

def police (policy : PolicyTableEntry) (p : MeteredPacket) : PolicyTableEntry × Mark := applyPolicer p.size (applyMeter p.time policy)

end TBPolicy

namespace SRTCMPolicy

def police (policy : PolicyTableEntry) (p : MeteredPacket) : PolicyTableEntry × Mark := applyPolicer p.size (applyMeter p.time policy)

end SRTCMPolicy

namespace TRTCMPolicy

def police (policy : PolicyTableEntry) (p : MeteredPacket) : PolicyTableEntry × Mark := applyPolicer p.size (applyMeter p.time policy)

end TRTCMPolicy

namespace Policing

/-- The packets of a policy, metered and marked one after the other. -/
def component (police : PolicyTableEntry → MeteredPacket → PolicyTableEntry × Mark) : Meter PolicyTableEntry MeteredPacket ℚ where
  step policy p := (police policy p).1
  arrival := MeteredPacket.time

/-- The bytes of a packet if its mark is one of the list. -/
def paid (marks : List Mark) (mark : Mark) (size : ℕ) : ℚ := if mark ∈ marks then size else 0

def markedBytes (police : PolicyTableEntry → MeteredPacket → PolicyTableEntry × Mark) (marks : List Mark) (policy : PolicyTableEntry)
    (p : MeteredPacket) : ℚ :=
  paid marks (police policy p).2 p.size

/-- The bytes of the packets from `a` to `b` that are marked with one of the code points. -/
def bytesMarked (police : PolicyTableEntry → MeteredPacket → PolicyTableEntry × Mark) (marks : List Mark) (a b : ℚ) (policy : PolicyTableEntry)
    (packets : List MeteredPacket) : ℚ :=
  (component police).charged (markedBytes police marks) a b policy packets

/-- The bucket holds something between nothing and its cap. -/
def InBucket (bucket cap : ℚ) : Prop := 0 ≤ bucket ∧ bucket ≤ cap

variable {bucket cap tokens rate waited : ℚ} {size : ℕ}

/-- The bucket after tokens have come in. -/
theorem refill_spec (inside : InBucket bucket cap) (gain : 0 ≤ tokens) :
    InBucket (if bucket + tokens ≤ cap then bucket + tokens else cap) cap ∧
      (if bucket + tokens ≤ cap then bucket + tokens else cap) ≤ bucket + tokens := by
  obtain ⟨low, high⟩ := inside
  split_ifs with room
  · exact ⟨⟨add_nonneg low gain, room⟩, le_rfl⟩
  · exact ⟨⟨low.trans high, le_rfl⟩, (not_le.mp room).le⟩

theorem InBucket.spend (inside : InBucket bucket cap) (enough : bucket - size ≥ 0) : InBucket (bucket - size) cap :=
  ⟨enough, (sub_le_self bucket (Nat.cast_nonneg size)).trans inside.2⟩

end Policing

namespace TBPolicy

open Policing

variable {policy : PolicyTableEntry} {now cir cbs : ℚ} {p : MeteredPacket}

/-- The bucket is within its cap, and the parameters are those that were given. -/
structure Within (cir cbs : ℚ) (policy : PolicyTableEntry) : Prop where
  rate : policy.cir = cir
  cap : policy.cbs = cbs
  committed : InBucket policy.cBucket cbs

theorem Within.metered (within : Within cir cbs policy) (nonneg : 0 ≤ cir) (later : policy.arrivalTime ≤ now) :
    Within cir cbs (applyMeter now policy) ∧ (applyMeter now policy).cBucket ≤ policy.cBucket + cir * (now - policy.arrivalTime) := by
  obtain ⟨rfl, rfl, inside⟩ := within
  obtain ⟨bounded, gained⟩ := refill_spec inside (mul_nonneg nonneg (sub_nonneg.mpr later))
  exact ⟨⟨rfl, rfl, bounded⟩, gained⟩

theorem Within.policed (within : Within cir cbs policy) (size : ℕ) : Within cir cbs (applyPolicer size policy).1 ∧
    (applyPolicer size policy).1.cBucket + paid [.initialCodePt] (applyPolicer size policy).2 size =
      policy.cBucket := by
  unfold applyPolicer
  split_ifs with enough
  · exact ⟨⟨within.rate, within.cap, within.committed.spend enough⟩, by simp [paid]⟩
  · exact ⟨within, by simp [paid]⟩

theorem pays (nonneg : 0 ≤ cir) : (component police).Pays (Within cir cbs) PolicyTableEntry.arrivalTime PolicyTableEntry.cBucket
    (markedBytes police [.initialCodePt]) cir cbs where
  kept policy p within later := ((within.metered nonneg later).1.policed p.size).1
  filled policy p := by
    unfold component police applyPolicer
    dsimp only
    split_ifs <;> rfl
  nonneg policy within := within.committed.1
  full policy within := within.committed.2
  gained policy p within later := by
    obtain ⟨metered, gained⟩ := within.metered nonneg later
    exact (metered.policed p.size).2.le.trans gained
  capped policy p within later := by
    obtain ⟨metered, gained⟩ := within.metered nonneg later
    exact (metered.policed p.size).2.le.trans metered.committed.2

/-- What a token bucket promises for the packets from `a` to `b`. -/
structure Conforms (policy : PolicyTableEntry) (packets : List MeteredPacket) (a b : ℚ) : Prop where
  committed : InBucket ((component police).after policy packets).cBucket policy.cbs
  metered : ∀ now, ((component police).after policy packets).arrivalTime ≤ now →
    InBucket (applyMeter now ((component police).after policy packets)).cBucket policy.cbs
  initial : bytesMarked police [.initialCodePt] a b policy packets ≤ policy.cbs + policy.cir * (b - a)

theorem Within.conforms (within : Within cir cbs policy) (nonneg : 0 ≤ cir) {packets : List MeteredPacket}
    (ordered : (component police).Ordered policy.arrivalTime packets) {a b : ℚ} (window : a ≤ b) : Conforms policy packets a b := by
  have last := (pays nonneg).after within ordered
  have initial := (pays nonneg).charged_le nonneg within ordered window
  obtain ⟨rfl, rfl, _⟩ := within
  exact ⟨last.committed, fun now later => (last.metered nonneg later).1.committed, initial⟩

end TBPolicy

namespace SRTCMPolicy

open Policing

variable {policy : PolicyTableEntry} {now cir cbs ebs : ℚ} {p : MeteredPacket}

structure Within (cir cbs ebs : ℚ) (policy : PolicyTableEntry) : Prop where
  rate : policy.cir = cir
  cap : policy.cbs = cbs
  excessCap : policy.ebs = ebs
  committed : InBucket policy.cBucket cbs
  excess : InBucket policy.eBucket ebs

/-- What overflows the committed bucket goes into the other one, and no token into both. -/
theorem Within.metered (within : Within cir cbs ebs policy) (nonneg : 0 ≤ cir) (later : policy.arrivalTime ≤ now) :
    Within cir cbs ebs (applyMeter now policy) ∧ (applyMeter now policy).cBucket ≤ policy.cBucket + cir * (now - policy.arrivalTime) ∧
      (applyMeter now policy).cBucket + (applyMeter now policy).eBucket ≤
        policy.cBucket + policy.eBucket + cir * (now - policy.arrivalTime) := by
  obtain ⟨rfl, rfl, rfl, inside, excess⟩ := within
  have gain := mul_nonneg nonneg (sub_nonneg.mpr later)
  unfold applyMeter
  dsimp only
  split_ifs with room spill
  · exact ⟨⟨rfl, rfl, rfl, ⟨add_nonneg inside.1 gain, room⟩, excess⟩, le_rfl, by linarith⟩
  · refine ⟨⟨rfl, rfl, rfl, ⟨inside.1.trans inside.2, le_rfl⟩, ⟨?_, spill⟩⟩, ?_, ?_⟩
    · linarith [excess.1]
    · exact (not_le.mp room).le
    · dsimp only
      linarith
  · refine ⟨⟨rfl, rfl, rfl, ⟨inside.1.trans inside.2, le_rfl⟩, ⟨excess.1.trans excess.2, le_rfl⟩⟩, (not_le.mp room).le, ?_⟩
    dsimp only
    linarith

theorem Within.policed (within : Within cir cbs ebs policy) (size : ℕ) : Within cir cbs ebs (applyPolicer size policy).1 ∧
    (applyPolicer size policy).1.cBucket + paid [.initialCodePt] (applyPolicer size policy).2 size =
      policy.cBucket ∧
    (applyPolicer size policy).1.cBucket + (applyPolicer size policy).1.eBucket +
      paid [.initialCodePt, .downgrade1] (applyPolicer size policy).2 size = policy.cBucket + policy.eBucket := by
  obtain ⟨rate, cap, excessCap, committed, excess⟩ := within
  unfold applyPolicer
  split_ifs with enough other
  · exact ⟨⟨rate, cap, excessCap, committed.spend enough, excess⟩, by simp [paid], by simp [paid]; ring⟩
  · exact ⟨⟨rate, cap, excessCap, committed, excess.spend other⟩, by simp [paid], by simp [paid]; ring⟩
  · exact ⟨⟨rate, cap, excessCap, committed, excess⟩, by simp [paid], by simp [paid]⟩

theorem filled (policy : PolicyTableEntry) (p : MeteredPacket) : ((component police).step policy p).arrivalTime = p.time := by
  unfold component police applyPolicer applyMeter
  dsimp only
  split_ifs <;> rfl

theorem pays (nonneg : 0 ≤ cir) : (component police).Pays (Within cir cbs ebs) PolicyTableEntry.arrivalTime PolicyTableEntry.cBucket
    (markedBytes police [.initialCodePt]) cir cbs where
  kept policy p within later := ((within.metered nonneg later).1.policed p.size).1
  filled := filled
  nonneg policy within := within.committed.1
  full policy within := within.committed.2
  gained policy p within later := by
    obtain ⟨metered, gained, _⟩ := within.metered nonneg later
    exact (metered.policed p.size).2.1.le.trans gained
  capped policy p within later := by
    obtain ⟨metered, gained, _⟩ := within.metered nonneg later
    exact (metered.policed p.size).2.1.le.trans metered.committed.2

theorem pays_both (nonneg : 0 ≤ cir) : (component police).Pays (Within cir cbs ebs) PolicyTableEntry.arrivalTime
    (fun policy => policy.cBucket + policy.eBucket) (markedBytes police [.initialCodePt, .downgrade1]) cir (cbs + ebs) where
  kept policy p within later := ((within.metered nonneg later).1.policed p.size).1
  filled := filled
  nonneg policy within := add_nonneg within.committed.1 within.excess.1
  full policy within := add_le_add within.committed.2 within.excess.2
  gained policy p within later := by
    obtain ⟨metered, _, gained⟩ := within.metered nonneg later
    exact (metered.policed p.size).2.2.le.trans gained
  capped policy p within later := by
    obtain ⟨metered, _, gained⟩ := within.metered nonneg later
    exact (metered.policed p.size).2.2.le.trans (add_le_add metered.committed.2 metered.excess.2)

/-- What a single rate marker promises for the packets from `a` to `b`. -/
structure Conforms (policy : PolicyTableEntry) (packets : List MeteredPacket) (a b : ℚ) : Prop where
  committed : InBucket ((component police).after policy packets).cBucket policy.cbs
  excess : InBucket ((component police).after policy packets).eBucket policy.ebs
  metered : ∀ now, ((component police).after policy packets).arrivalTime ≤ now →
    InBucket (applyMeter now ((component police).after policy packets)).cBucket policy.cbs ∧
      InBucket (applyMeter now ((component police).after policy packets)).eBucket policy.ebs
  initial : bytesMarked police [.initialCodePt] a b policy packets ≤ policy.cbs + policy.cir * (b - a)
  both : bytesMarked police [.initialCodePt, .downgrade1] a b policy packets ≤ policy.cbs + policy.ebs + policy.cir * (b - a)

theorem Within.conforms (within : Within cir cbs ebs policy) (nonneg : 0 ≤ cir) {packets : List MeteredPacket}
    (ordered : (component police).Ordered policy.arrivalTime packets) {a b : ℚ} (window : a ≤ b) : Conforms policy packets a b := by
  have last := (pays nonneg).after within ordered
  have initial := (pays nonneg).charged_le nonneg within ordered window
  have both := (pays_both nonneg).charged_le nonneg within ordered window
  obtain ⟨rfl, rfl, rfl, _, _⟩ := within
  refine ⟨last.committed, last.excess, fun now later => ?_, initial, both⟩
  have metered := (last.metered nonneg later).1
  exact ⟨metered.committed, metered.excess⟩

end SRTCMPolicy

namespace TRTCMPolicy

open Policing

variable {policy : PolicyTableEntry} {now cir cbs pir pbs : ℚ} {p : MeteredPacket}

structure Within (cir cbs pir pbs : ℚ) (policy : PolicyTableEntry) : Prop where
  rate : policy.cir = cir
  cap : policy.cbs = cbs
  peakRate : policy.pir = pir
  peakCap : policy.pbs = pbs
  committed : InBucket policy.cBucket cbs
  peak : InBucket policy.pBucket pbs

theorem Within.metered (within : Within cir cbs pir pbs policy) (nonneg : 0 ≤ cir) (peakNonneg : 0 ≤ pir) (later : policy.arrivalTime ≤ now) :
    Within cir cbs pir pbs (applyMeter now policy) ∧ (applyMeter now policy).cBucket ≤ policy.cBucket + cir * (now - policy.arrivalTime) ∧
      (applyMeter now policy).pBucket ≤ policy.pBucket + pir * (now - policy.arrivalTime) := by
  obtain ⟨rfl, rfl, rfl, rfl, inside, peak⟩ := within
  obtain ⟨bounded, gained⟩ := refill_spec inside (mul_nonneg nonneg (sub_nonneg.mpr later))
  obtain ⟨peakBounded, peakGained⟩ := refill_spec peak (mul_nonneg peakNonneg (sub_nonneg.mpr later))
  exact ⟨⟨rfl, rfl, rfl, rfl, bounded, peakBounded⟩, gained, peakGained⟩

theorem Within.policed (within : Within cir cbs pir pbs policy) (size : ℕ) : Within cir cbs pir pbs (applyPolicer size policy).1 ∧
    (applyPolicer size policy).1.cBucket + paid [.initialCodePt] (applyPolicer size policy).2 size =
      policy.cBucket ∧
    (applyPolicer size policy).1.pBucket + paid [.initialCodePt, .downgrade1] (applyPolicer size policy).2 size =
      policy.pBucket := by
  obtain ⟨rate, cap, peakRate, peakCap, committed, peak⟩ := within
  unfold applyPolicer
  split_ifs with red yellow
  · exact ⟨⟨rate, cap, peakRate, peakCap, committed, peak⟩, by simp [paid], by simp [paid]⟩
  · exact ⟨⟨rate, cap, peakRate, peakCap, committed, peak.spend (not_lt.mp red)⟩, by simp [paid], by simp [paid]⟩
  · exact ⟨⟨rate, cap, peakRate, peakCap, committed.spend (not_lt.mp yellow), peak.spend (not_lt.mp red)⟩, by simp [paid], by simp [paid]⟩

theorem filled (policy : PolicyTableEntry) (p : MeteredPacket) : ((component police).step policy p).arrivalTime = p.time := by
  unfold component police applyPolicer
  dsimp only
  split_ifs <;> rfl

theorem pays (nonneg : 0 ≤ cir) (peakNonneg : 0 ≤ pir) : (component police).Pays (Within cir cbs pir pbs) PolicyTableEntry.arrivalTime
    PolicyTableEntry.cBucket (markedBytes police [.initialCodePt]) cir cbs where
  kept policy p within later := ((within.metered nonneg peakNonneg later).1.policed p.size).1
  filled := filled
  nonneg policy within := within.committed.1
  full policy within := within.committed.2
  gained policy p within later := by
    obtain ⟨metered, gained, _⟩ := within.metered nonneg peakNonneg later
    exact (metered.policed p.size).2.1.le.trans gained
  capped policy p within later := by
    obtain ⟨metered, gained, _⟩ := within.metered nonneg peakNonneg later
    exact (metered.policed p.size).2.1.le.trans metered.committed.2

theorem pays_peak (nonneg : 0 ≤ cir) (peakNonneg : 0 ≤ pir) : (component police).Pays (Within cir cbs pir pbs) PolicyTableEntry.arrivalTime
    PolicyTableEntry.pBucket (markedBytes police [.initialCodePt, .downgrade1]) pir pbs where
  kept policy p within later := ((within.metered nonneg peakNonneg later).1.policed p.size).1
  filled := filled
  nonneg policy within := within.peak.1
  full policy within := within.peak.2
  gained policy p within later := by
    obtain ⟨metered, _, gained⟩ := within.metered nonneg peakNonneg later
    exact (metered.policed p.size).2.2.le.trans gained
  capped policy p within later := by
    obtain ⟨metered, _, gained⟩ := within.metered nonneg peakNonneg later
    exact (metered.policed p.size).2.2.le.trans metered.peak.2

/-- What a two rate marker promises for the packets from `a` to `b`. -/
structure Conforms (policy : PolicyTableEntry) (packets : List MeteredPacket) (a b : ℚ) : Prop where
  committed : InBucket ((component police).after policy packets).cBucket policy.cbs
  peak : InBucket ((component police).after policy packets).pBucket policy.pbs
  metered : ∀ now, ((component police).after policy packets).arrivalTime ≤ now →
    InBucket (applyMeter now ((component police).after policy packets)).cBucket policy.cbs ∧
      InBucket (applyMeter now ((component police).after policy packets)).pBucket policy.pbs
  initial : bytesMarked police [.initialCodePt] a b policy packets ≤ policy.cbs + policy.cir * (b - a)
  both : bytesMarked police [.initialCodePt, .downgrade1] a b policy packets ≤ policy.pbs + policy.pir * (b - a)

theorem Within.conforms (within : Within cir cbs pir pbs policy) (nonneg : 0 ≤ cir) (peakNonneg : 0 ≤ pir) {packets : List MeteredPacket}
    (ordered : (component police).Ordered policy.arrivalTime packets) {a b : ℚ} (window : a ≤ b) : Conforms policy packets a b := by
  have last := (pays nonneg peakNonneg).after within ordered
  have initial := (pays nonneg peakNonneg).charged_le nonneg within ordered window
  have both := (pays_peak nonneg peakNonneg).charged_le peakNonneg within ordered window
  obtain ⟨rfl, rfl, rfl, rfl, _, _⟩ := within
  refine ⟨last.committed, last.peak, fun now later => ?_, initial, both⟩
  have metered := (last.metered nonneg peakNonneg later).1
  exact ⟨metered.committed, metered.peak⟩

end TRTCMPolicy

namespace Policing

variable {packets : List MeteredPacket} {a b : ℚ}

/-- The packets come at times that do not fall, from the start of the clock on. -/
def InTime (packets : List MeteredPacket) : Prop := (0 :: packets.map MeteredPacket.time).Pairwise (· ≤ ·)

instance (packets : List MeteredPacket) : Decidable (InTime packets) := inferInstanceAs (Decidable (List.Pairwise _ _))

theorem ordered_of_pairwise {now : ℚ} (police : PolicyTableEntry → MeteredPacket → PolicyTableEntry × Mark)
    (inTime : (now :: packets.map MeteredPacket.time).Pairwise (· ≤ ·)) : (component police).Ordered now packets := by
  induction packets generalizing now with
  | nil => trivial
  | cons p packets ih =>
    obtain ⟨later, rest⟩ := List.pairwise_cons.mp inTime
    exact ⟨later p.time List.mem_cons_self, ih rest⟩

/-- The three policers with buckets, from the entries that `addPolicyEntry` makes. -/
theorem policers_conform (slot : PolicyTableEntry) (source dest codePt : ℤ) (cir cbs ebs pir pbs : ℚ≥0) (inTime : InTime packets)
    (window : a ≤ b) : TBPolicy.Conforms (slot.filled source dest codePt (.tokenBucket cir cbs)) packets a b ∧
      SRTCMPolicy.Conforms (slot.filled source dest codePt (.srTCM cir cbs ebs)) packets a b ∧
      TRTCMPolicy.Conforms (slot.filled source dest codePt (.trTCM cir cbs pir pbs)) packets a b := by
  have full (cap : ℚ≥0) : InBucket (cap : ℚ) cap := ⟨cap.2, le_rfl⟩
  have rate (cir : ℚ≥0) : (0 : ℚ) ≤ cir / 8 := div_nonneg cir.2 (by norm_num)
  have ordered (police) : (component police).Ordered 0 packets := ordered_of_pairwise police inTime
  refine ⟨?_, ?_, ?_⟩
  · have within : TBPolicy.Within (cir / 8) cbs (slot.filled source dest codePt (.tokenBucket cir cbs)) := ⟨rfl, rfl, full cbs⟩
    exact within.conforms (rate cir) (ordered TBPolicy.police) window
  · have within : SRTCMPolicy.Within (cir / 8) cbs ebs (slot.filled source dest codePt (.srTCM cir cbs ebs)) :=
      ⟨rfl, rfl, rfl, full cbs, full ebs⟩
    exact within.conforms (rate cir) (ordered SRTCMPolicy.police) window
  · have within : TRTCMPolicy.Within (cir / 8) cbs (pir / 8) pbs (slot.filled source dest codePt (.trTCM cir cbs pir pbs)) :=
      ⟨rfl, rfl, rfl, rfl, full cbs, full pbs⟩
    exact within.conforms (rate cir) (rate pir) (ordered TRTCMPolicy.police) window

/-- Three packets of 600 bytes, of which the bucket of 1000 bytes pays for the first and the last. -/
theorem policers_conform_sample :
    let packets : List MeteredPacket := [⟨0, 600⟩, ⟨0, 600⟩, ⟨1, 600⟩]
    let policy := PolicyTableEntry.blank.filled 1 2 10 (.tokenBucket 8000 1000)
    bytesMarked TBPolicy.police [.initialCodePt] 0 1 policy packets = 1200 ∧ TBPolicy.Conforms policy packets 0 1 ∧
      SRTCMPolicy.Conforms (PolicyTableEntry.blank.filled 1 2 10 (.srTCM 8000 1000 500)) packets 0 1 ∧
      TRTCMPolicy.Conforms (PolicyTableEntry.blank.filled 1 2 10 (.trTCM 8000 1000 16000 2000)) packets 0 1 :=
  ⟨by decide +kernel, policers_conform .blank 1 2 10 8000 1000 500 16000 2000 (by decide +kernel) (by norm_num)⟩

end Policing

end Ns2
