import Ns2.Diffserv.SFDPolicy
import Mathlib.Tactic.Common
import Mathlib.Data.List.TakeDrop

namespace Ns2

/-- What is given to `addPolicyEntry`. -/
structure PolicyAdd where
  source : ℤ
  dest : ℤ
  codePt : ℤ
  args : PolicyArgs

/-- What is given to `addPolicerEntry`. The first downgraded code point is not read for `Null`, the other one may be left out. -/
structure PolicerAdd where
  policy : PolicyIndex
  codePt : ℤ
  downgrade1 : ℤ
  downgrade2 : Option ℤ

def PolicyArgs.index : PolicyArgs → PolicyIndex
  | .null => .null
  | .TSW2CM _ _ => .TSW2CM
  | .TSW3CM _ _ => .TSW3CM
  | .tokenBucket _ _ => .TB
  | .srTCM _ _ _ => .SRTCM
  | .trTCM _ _ _ _ => .TRTCM
  | .SFD _ => .SFD
  | .EW => .EW
  | .DEWP => .DEWP

def PolicyIndex.policer : PolicyIndex → PolicerType
  | .null => .nullPolicer
  | .TSW2CM => .TSW2CMPolicer
  | .TSW3CM => .TSW3CMPolicer
  | .TB => .tokenBucketPolicer
  | .SRTCM => .srTCMPolicer
  | .TRTCM => .trTCMPolicer
  | .SFD => .SFDPolicer
  | .EW => .EWPolicer
  | .DEWP => .DEWPPolicer

def PolicyAdd.entry (p : PolicyAdd) (slot : PolicyTableEntry) : PolicyTableEntry := slot.filled p.source p.dest p.codePt p.args

/-- The part of `addPolicerEntry` that is not guarded by the check of the size. -/
def PolicerAdd.codePoints (p : PolicerAdd) (slot : PolicerTableEntry) : PolicerTableEntry :=
  { slot with
    initialCodePt := p.codePt
    downgrade1 := if slot.policer = .nullPolicer then p.codePt else p.downgrade1
    downgrade2 := p.downgrade2.getD slot.downgrade2 }

/-- The memory from the start of each table on is taken as one array, of which the first `MAX_POLICIES` and `MAX_CP` places are the table. -/
structure PolicyClassifier where
  policyPool : PolicyIndex → Bool
  /-- The flow table of `policy_pool[SFD]`. -/
  sfd : SFDPolicy
  policyTable : ℕ → PolicyTableEntry
  policyTableSize : ℕ
  policerTable : ℕ → PolicerTableEntry
  policerTableSize : ℕ

/-- A call that sets up the classifier. -/
inductive PolicySetup
  | policy (p : PolicyAdd)
  | policer (p : PolicerAdd)

/-- What comes of a packet that is to be marked. -/
inductive Marking
  /-- "The policy object doesn't exist", and the program exits. -/
  | noPolicy
  /-- The policy is given NULL for its policer. -/
  | nullPolicer
  | marked (codePt : ℤ)
deriving DecidableEq

namespace PolicyClassifier

def MAX_POLICIES : ℕ := 20

def MAX_CP : ℕ := 40

def ANY_HOST : ℤ := -1

/-- As it is constructed, with what is in the memory of the tables. -/
def constructed (policies : ℕ → PolicyTableEntry) (policers : ℕ → PolicerTableEntry) : PolicyClassifier where
  policyPool _ := false
  sfd := .empty
  policyTable := policies
  policyTableSize := 0
  policerTable := policers
  policerTableSize := 0

def addPolicyEntry (c : PolicyClassifier) (p : PolicyAdd) : PolicyClassifier :=
  if c.policyTableSize = MAX_POLICIES then c
  else
    { c with
      policyPool := Function.update c.policyPool p.args.index true
      policyTable := Function.update c.policyTable c.policyTableSize (p.entry (c.policyTable c.policyTableSize))
      policyTableSize := c.policyTableSize + 1 }

def addPolicerEntry (c : PolicyClassifier) (p : PolicerAdd) : PolicyClassifier :=
  let slot := c.policerTable c.policerTableSize
  let (pool, slot) :=
    if c.policerTableSize = MAX_CP then (c.policyPool, slot)
    else (Function.update c.policyPool p.policy true, { slot with policer := p.policy.policer, policyIndex := p.policy })
  { c with
    policyPool := pool
    policerTable := Function.update c.policerTable c.policerTableSize (p.codePoints slot)
    policerTableSize := c.policerTableSize + 1 }

/-- The loop of a lookup over some places from `i` on: the place that it returns, and those that it has read. -/
def scan (hit : ℕ → Bool) : ℕ → ℕ → Option ℕ × List ℕ
  | _, 0 => (none, [])
  | i, n + 1 => if hit i then (some i, [i]) else ((scan hit (i + 1) n).1, i :: (scan hit (i + 1) n).2)

/-- The entry is for packets from `source` to `dest`. -/
def covers (source dest sourceNode destNode : ℤ) : Bool :=
  (sourceNode == source || sourceNode == ANY_HOST) && (destNode == dest || destNode == ANY_HOST)

/-- The loop runs up to and with `policyTableSize`. -/
def getPolicyTableEntry (c : PolicyClassifier) (source dest : ℤ) : Option ℕ × List ℕ :=
  scan (fun i => covers source dest (c.policyTable i).sourceNode (c.policyTable i).destNode) 0 (c.policyTableSize + 1)

def getPolicerTableEntry (c : PolicyClassifier) (policyIndex : PolicyIndex) (oldCodePt : ℤ) : Option ℕ :=
  (scan (fun i => (c.policerTable i).policyIndex == policyIndex && (c.policerTable i).initialCodePt == oldCodePt) 0 c.policerTableSize).1

/-- `applyMeter` and then `applyPolicer` of a policy. What the two policies that keep statistics of their own decide is `verdict`. -/
def police (c : PolicyClassifier) (i : ℕ) (policer : PolicerTableEntry) (uniform : ℚ) (verdict : Mark) (pkt : FlowPacket) :
    Option (PolicyClassifier × Mark) :=
  let policy := c.policyTable i
  let entry (policed : PolicyTableEntry × Mark) : Option (PolicyClassifier × Mark) :=
    some ({ c with policyTable := Function.update c.policyTable i policed.1 }, policed.2)
  match policy.policyIndex with
  | .null => entry (NullPolicy.applyPolicer (NullPolicy.applyMeter pkt.time policy))
  | .TSW2CM => entry (TSW2CMPolicy.applyPolicer uniform (TSW2CMPolicy.applyMeter pkt.time pkt.size policy))
  | .TSW3CM => entry (TSW3CMPolicy.applyPolicer uniform (TSW3CMPolicy.applyMeter pkt.time pkt.size policy))
  | .TB => entry (TBPolicy.applyPolicer pkt.size (TBPolicy.applyMeter pkt.time policy))
  | .SRTCM => entry (SRTCMPolicy.applyPolicer pkt.size (SRTCMPolicy.applyMeter pkt.time policy))
  | .TRTCM => entry (TRTCMPolicy.applyPolicer pkt.size (TRTCMPolicy.applyMeter pkt.time policy))
  | .SFD => do
    let sfd ← c.sfd.applyMeter pkt
    let (sfd, mark) := sfd.applyPolicer policy policer uniform pkt
    return ({ c with sfd := sfd }, mark)
  | .EW => some (c, verdict)
  | .DEWP => some (c, verdict)

/-- `none`: the walk along the flow table does not end. -/
def mark (c : PolicyClassifier) (uniform : ℚ) (verdict : Mark) (pkt : FlowPacket) : Option (PolicyClassifier × Marking) :=
  match (c.getPolicyTableEntry pkt.saddr pkt.daddr).1 with
  | none => some (c, .noPolicy)
  | some i =>
    let policy := c.policyTable i
    if c.policyPool policy.policyIndex then
      match c.getPolicerTableEntry policy.policyIndex policy.codePt with
      | none => some (c, .nullPolicer)
      | some j => (c.police i (c.policerTable j) uniform verdict pkt).map fun (c', field) => (c', .marked ((c.policerTable j).codePoint field))
    else some (c, .marked policy.codePt)

def setUp (c : PolicyClassifier) : PolicySetup → PolicyClassifier
  | .policy p => c.addPolicyEntry p
  | .policer p => c.addPolicerEntry p

def after (c : PolicyClassifier) (calls : List PolicySetup) : PolicyClassifier := calls.foldl setUp c

/-- The policies that are given to `addPolicyEntry`. -/
def policies (calls : List PolicySetup) : List PolicyAdd := calls.filterMap fun | .policy p => some p | .policer _ => none

def policers (calls : List PolicySetup) : List PolicerAdd := calls.filterMap fun | .policer p => some p | .policy _ => none

/-- The policies for which there is room. -/
def added (calls : List PolicySetup) : List PolicyAdd := (policies calls).take MAX_POLICIES

/-- The table of the call is full. -/
def full (c : PolicyClassifier) : PolicySetup → Prop
  | .policy _ => c.policyTableSize = MAX_POLICIES
  | .policer _ => c.policerTableSize = MAX_CP

/-- The policy is for packets from `source` to `dest`. -/
def wanted (source dest : ℤ) (p : PolicyAdd) : Bool := covers source dest p.source p.dest

/-- What the classifier promises for a packet from `source` to `dest` after the calls. -/
structure Sound (c : PolicyClassifier) (calls : List PolicySetup) (source dest : ℤ) : Prop where
  sizes : ∀ first, first <+: calls → (c.after first).policyTableSize ≤ MAX_POLICIES ∧ (c.after first).policerTableSize ≤ MAX_CP
  rejected : ∀ first call, first ++ [call] <+: calls → (c.after first).full call → c.after (first ++ [call]) = c.after first
  entries : ∀ i p, (added calls)[i]? = some p → (c.after calls).policyTable i = p.entry (c.policyTable i)
  returned : ((c.after calls).getPolicyTableEntry source dest).1 = (added calls).findIdx? (wanted source dest)
  read : ∀ i ∈ ((c.after calls).getPolicyTableEntry source dest).2, i < (added calls).length
  policer : ∀ uniform verdict pkt, pkt.saddr = source → pkt.daddr = dest →
    ∀ after, (c.after calls).mark uniform verdict pkt ≠ some (after, .nullPolicer)

/-- There is room for the policers, a policy that has been added is for the packet, and the first such policy has a policer. -/
structure Configured (calls : List PolicySetup) (source dest : ℤ) : Prop where
  room : (policers calls).length ≤ MAX_CP
  policed : ∃ p, (added calls).find? (wanted source dest) = some p ∧
    ∃ q ∈ policers calls, q.policy = p.args.index ∧ q.codePt = p.codePt

variable {c : PolicyClassifier} {calls : List PolicySetup} {hit : ℕ → Bool} {i n : ℕ} {source dest : ℤ}

/-- A lookup ends at the first hit, and has read no place behind it. -/
theorem scan_spec (hit : ℕ → Bool) (i n : ℕ) :
    (∃ k, scan hit i n = (some k, List.range' i (k + 1 - i)) ∧ i ≤ k ∧ k < i + n ∧ hit k ∧ ∀ j, i ≤ j → j < k → ¬hit j) ∨
      scan hit i n = (none, List.range' i n) ∧ ∀ j, i ≤ j → j < i + n → ¬hit j := by
  induction n generalizing i with
  | zero => exact Or.inr ⟨rfl, fun j low high => by omega⟩
  | succ n ih =>
    rw [scan]
    split_ifs with here
    · refine Or.inl ⟨i, ?_, le_rfl, by omega, here, fun j low high => by omega⟩
      rw [Nat.add_sub_cancel_left, List.range'_one]
    · rcases ih (i + 1) with ⟨k, found, low, high, good, first⟩ | ⟨missed, none⟩
      · refine Or.inl ⟨k, ?_, by omega, by omega, good, fun j low' high' => ?_⟩
        · rw [found, show k + 1 - i = k + 1 - (i + 1) + 1 by omega, List.range'_succ]
        · rcases eq_or_lt_of_le low' with rfl | later
          · exact here
          · exact first j later high'
      · refine Or.inr ⟨by rw [missed, List.range'_succ], fun j low high => ?_⟩
        rcases eq_or_lt_of_le low with rfl | later
        · exact here
        · exact none j later (by omega)

/-- The tables hold what has been added to them, and otherwise what was in the memory. -/
structure Filled (c : PolicyClassifier) (calls : List PolicySetup) (d : PolicyClassifier) : Prop where
  size : d.policyTableSize = (added calls).length
  entries : ∀ i p, (added calls)[i]? = some p → d.policyTable i = p.entry (c.policyTable i)
  beyond : ∀ i, (added calls).length ≤ i → d.policyTable i = c.policyTable i
  pool : ∀ p ∈ added calls, d.policyPool p.args.index = true
  policerSize : d.policerTableSize = (policers calls).length
  policers : (policers calls).length ≤ MAX_CP → ∀ i q, (policers calls)[i]? = some q →
    (d.policerTable i).policyIndex = q.policy ∧ (d.policerTable i).initialCodePt = q.codePt

theorem policies_snoc (calls : List PolicySetup) (call : PolicySetup) :
    policies (calls ++ [call]) = policies calls ++ (match call with | .policy p => [p] | .policer _ => []) ∧
      policers (calls ++ [call]) = policers calls ++ (match call with | .policer p => [p] | .policy _ => []) := by
  cases call <;> simp [policies, policers]

theorem Filled.policy {d : PolicyClassifier} (filled : Filled c calls d) (p : PolicyAdd) :
    Filled c (calls ++ [.policy p]) (d.addPolicyEntry p) := by
  obtain ⟨policies, policers⟩ := policies_snoc calls (.policy p)
  have size := filled.size
  rw [added, List.length_take] at size
  rw [List.append_nil] at policers
  unfold addPolicyEntry
  split_ifs with full
  · have same : added (calls ++ [.policy p]) = added calls := by
      rw [added, policies, List.take_append_of_le_length (by omega), added]
    exact ⟨by rw [same, filled.size], by rw [same]; exact filled.entries, by rw [same]; exact filled.beyond, by rw [same]; exact filled.pool,
      by rw [policers, filled.policerSize], by rw [policers]; exact filled.policers⟩
  · have more : added (calls ++ [.policy p]) = added calls ++ [p] := by
      rw [added, policies, added, List.take_of_length_le (l := PolicyClassifier.policies calls) (by omega), List.take_of_length_le]
      rw [List.length_append, List.length_singleton]
      omega
    refine ⟨by rw [more, List.length_append, filled.size]; rfl, fun i q at_ => ?_, fun i high => ?_, fun q member => ?_,
      by rw [policers, filled.policerSize], by rw [policers]; exact filled.policers⟩
    · rw [more, List.getElem?_append] at at_
      split_ifs at at_ with old
      · show Function.update _ _ _ i = _
        rw [Function.update_of_ne (by rw [filled.size]; omega), filled.entries i q at_]
      · rw [List.getElem?_singleton] at at_
        split_ifs at at_ with new
        cases at_
        obtain rfl : i = d.policyTableSize := by rw [filled.size]; omega
        show Function.update _ _ _ _ = _
        rw [Function.update_self, filled.beyond _ filled.size.ge]
    · rw [more, List.length_append, List.length_singleton] at high
      show Function.update _ _ _ i = _
      rw [Function.update_of_ne (by rw [filled.size]; omega), filled.beyond i (by omega)]
    · show Function.update _ _ _ _ = _
      rw [Function.update_apply]
      split_ifs with same
      · rfl
      · rw [more] at member
        rcases List.mem_append.mp member with old | new
        · exact filled.pool q old
        · exact absurd (congrArg (PolicyArgs.index ∘ PolicyAdd.args) (List.mem_singleton.mp new)) same

theorem Filled.policer {d : PolicyClassifier} (filled : Filled c calls d) (q : PolicerAdd) :
    Filled c (calls ++ [.policer q]) (d.addPolicerEntry q) := by
  obtain ⟨policies, policers⟩ := policies_snoc calls (.policer q)
  have same : added (calls ++ [.policer q]) = added calls := by rw [added, policies, List.append_nil, added]
  refine ⟨by rw [same]; exact filled.size, by rw [same]; exact filled.entries, by rw [same]; exact filled.beyond, ?_, ?_, ?_⟩
  · intro p member
    rw [same] at member
    have pooled := filled.pool p member
    unfold addPolicerEntry
    dsimp only
    split_ifs with full
    · exact pooled
    · show Function.update _ _ _ _ = _
      rw [Function.update_apply, pooled, ite_self]
  · rw [policers, List.length_append, ← filled.policerSize]
    rfl
  · intro room i p at_
    rw [policers, List.length_append, List.length_singleton] at room
    rw [policers, List.getElem?_append] at at_
    have open_ : d.policerTableSize ≠ MAX_CP := by rw [filled.policerSize]; omega
    unfold addPolicerEntry
    dsimp only
    rw [if_neg open_]
    split_ifs at at_ with old
    · rw [Function.update_of_ne (by rw [filled.policerSize]; omega)]
      exact filled.policers (by omega) i p at_
    · rw [List.getElem?_singleton] at at_
      split_ifs at at_ with new
      cases at_
      obtain rfl : i = d.policerTableSize := by rw [filled.policerSize]; omega
      rw [Function.update_self]
      exact ⟨rfl, rfl⟩

theorem after_snoc (call : PolicySetup) : c.after (calls ++ [call]) = (c.after calls).setUp call := by
  rw [after, List.foldl_append, List.foldl_cons, List.foldl_nil, after]

theorem filled_constructed (policies : ℕ → PolicyTableEntry) (policers : ℕ → PolicerTableEntry) (calls : List PolicySetup) :
    Filled (constructed policies policers) calls ((constructed policies policers).after calls) := by
  induction calls using List.reverseRecOn with
  | nil =>
    refine ⟨rfl, fun i p at_ => ?_, fun i _ => rfl, List.forall_mem_nil _, rfl, fun _ i q at_ => ?_⟩
    · simp [added, PolicyClassifier.policies] at at_
    · simp [PolicyClassifier.policers] at at_
  | append_singleton calls call ih =>
    rw [after_snoc]
    cases call with
    | policy p => exact ih.policy p
    | policer q => exact ih.policer q

theorem entry_spec (p : PolicyAdd) (slot : PolicyTableEntry) : (p.entry slot).sourceNode = p.source ∧ (p.entry slot).destNode = p.dest ∧
    (p.entry slot).policyIndex = p.args.index ∧ (p.entry slot).codePt = p.codePt := by
  obtain ⟨source, dest, codePt, args⟩ := p
  cases args <;> exact ⟨rfl, rfl, rfl, rfl⟩

section Lookup

variable {d : PolicyClassifier} {p : PolicyAdd}

theorem Filled.covers_iff (filled : Filled c calls d) (source dest : ℤ) (at_ : (added calls)[i]? = some p) :
    covers source dest (d.policyTable i).sourceNode (d.policyTable i).destNode = wanted source dest p := by
  obtain ⟨from_, to_, _⟩ := entry_spec p (c.policyTable i)
  rw [filled.entries i p at_, from_, to_, wanted]

/-- The first policy that is for the packet is returned, and no place behind it is read. -/
theorem Filled.lookup (filled : Filled c calls d) (known : (added calls).find? (wanted source dest) = some p) :
    ∃ k, (added calls)[k]? = some p ∧ (added calls).findIdx? (wanted source dest) = some k ∧ k < (added calls).length ∧
      d.getPolicyTableEntry source dest = (some k, List.range' 0 (k + 1)) := by
  obtain ⟨want, k, bound, here, before⟩ := List.find?_eq_some_iff_getElem.mp known
  have at_ : (added calls)[k]? = some p := by rw [List.getElem?_eq_getElem bound, here]
  have earlier (j : ℕ) (low : j < k) :
      ¬covers source dest (d.policyTable j).sourceNode (d.policyTable j).destNode := by
    rw [filled.covers_iff source dest (List.getElem?_eq_getElem (low.trans bound))]
    simpa using before j low
  have hit := filled.covers_iff source dest at_
  refine ⟨k, at_, ?_, bound, ?_⟩
  · refine List.findIdx?_eq_some_iff_getElem.mpr ⟨bound, by rwa [here], fun j low => by simpa using before j low⟩
  · rcases scan_spec (fun i => covers source dest (d.policyTable i).sourceNode (d.policyTable i).destNode) 0 (d.policyTableSize + 1) with
      ⟨k', found, _, _, good, first⟩ | ⟨_, none⟩
    · rcases lt_trichotomy k k' with less | rfl | more
      · exact absurd (hit.trans want) (first k k.zero_le less)
      · exact found
      · exact absurd good (earlier k' more)
    · refine absurd (hit.trans want) (none k k.zero_le ?_)
      rw [filled.size]
      omega

/-- Without such a policy the loop reads the place behind the last one. -/
theorem Filled.read_beyond (filled : Filled c calls d) (unknown : (added calls).find? (wanted source dest) = none) :
    (added calls).length ∈ (d.getPolicyTableEntry source dest).2 := by
  have absent (j : ℕ) (inUse : j < (added calls).length) : ¬covers source dest (d.policyTable j).sourceNode (d.policyTable j).destNode := by
    rw [filled.covers_iff source dest (List.getElem?_eq_getElem inUse)]
    exact List.find?_eq_none.mp unknown _ (List.getElem_mem inUse)
  rcases scan_spec (fun i => covers source dest (d.policyTable i).sourceNode (d.policyTable i).destNode) 0 (d.policyTableSize + 1) with
    ⟨k, found, _, _, good, _⟩ | ⟨missed, _⟩
  · have high : (added calls).length ≤ k := not_lt.mp fun inUse => absent k inUse good
    rw [getPolicyTableEntry, found]
    exact List.mem_range'_1.mpr ⟨Nat.zero_le _, by omega⟩
  · rw [getPolicyTableEntry, missed, filled.size]
    exact List.mem_range'_1.mpr ⟨Nat.zero_le _, by omega⟩

/-- A policer is found exactly if one has been added. -/
theorem Filled.policer_iff (filled : Filled c calls d) (room : (PolicyClassifier.policers calls).length ≤ MAX_CP) (index : PolicyIndex)
    (codePt : ℤ) : d.getPolicerTableEntry index codePt ≠ none ↔
      ∃ q ∈ PolicyClassifier.policers calls, q.policy = index ∧ q.codePt = codePt := by
  have known := filled.policers room
  have size := filled.policerSize
  rcases scan_spec (fun i => (d.policerTable i).policyIndex == index && (d.policerTable i).initialCodePt == codePt) 0 d.policerTableSize with
    ⟨k, found, _, high, good, _⟩ | ⟨missed, none⟩
  · rw [getPolicerTableEntry, found]
    refine iff_of_true (Option.some_ne_none k) ?_
    have bound : k < (PolicyClassifier.policers calls).length := by omega
    obtain ⟨policy, initial⟩ := known k _ (List.getElem?_eq_getElem bound)
    rw [policy, initial, Bool.and_eq_true, beq_iff_eq, beq_iff_eq] at good
    exact ⟨_, List.getElem_mem bound, good⟩
  · rw [getPolicerTableEntry, missed]
    refine iff_of_false (fun some => some rfl) ?_
    rintro ⟨q, member, rfl, rfl⟩
    obtain ⟨k, bound, rfl⟩ := List.getElem_of_mem member
    obtain ⟨policy, initial⟩ := known k _ (List.getElem?_eq_getElem bound)
    refine none k k.zero_le (by omega) ?_
    rw [policy, initial, beq_self_eq_true, beq_self_eq_true]
    rfl

/-- A packet for which a policy has been added is marked unless the policy has no policer. -/
theorem Filled.mark_iff (filled : Filled c calls d) (room : (PolicyClassifier.policers calls).length ≤ MAX_CP)
    (known : (added calls).find? (wanted source dest) = some p) (uniform : ℚ) (verdict : Mark) {pkt : FlowPacket} (sent : pkt.saddr = source)
    (due : pkt.daddr = dest) : (∀ after, d.mark uniform verdict pkt ≠ some (after, .nullPolicer)) ↔
      ∃ q ∈ PolicyClassifier.policers calls, q.policy = p.args.index ∧ q.codePt = p.codePt := by
  obtain ⟨k, at_, _, _, found⟩ := filled.lookup known
  obtain ⟨_, _, index, codePt⟩ := entry_spec p (c.policyTable k)
  have pooled := filled.pool p (List.mem_of_getElem? at_)
  rw [← filled.policer_iff room]
  simp only [mark, sent, due, found, filled.entries k p at_, index, codePt, pooled, if_true]
  cases d.getPolicerTableEntry p.args.index p.codePt with
  | none => simp
  | some j => simp

end Lookup

theorem after_sizes (policies : ℕ → PolicyTableEntry) (policers : ℕ → PolicerTableEntry) {first : List PolicySetup} (front : first <+: calls)
    (room : (PolicyClassifier.policers calls).length ≤ MAX_CP) :
    ((constructed policies policers).after first).policyTableSize ≤ MAX_POLICIES ∧
      ((constructed policies policers).after first).policerTableSize ≤ MAX_CP := by
  have filled := filled_constructed policies policers first
  refine ⟨filled.size ▸ (List.length_take_le ..), filled.policerSize ▸ le_trans ?_ room⟩
  exact (front.sublist.filterMap _).length_le

/-- From a classifier as it is constructed, exactly after such calls does it do what it promises for the packet. -/
theorem classified_iff (policies : ℕ → PolicyTableEntry) (policers : ℕ → PolicerTableEntry) (calls : List PolicySetup) (source dest : ℤ) :
    Sound (constructed policies policers) calls source dest ↔ Configured calls source dest := by
  have filled := filled_constructed policies policers calls
  constructor
  · intro sound
    have room : (PolicyClassifier.policers calls).length ≤ MAX_CP := filled.policerSize ▸ (sound.sizes calls (List.prefix_refl calls)).2
    refine ⟨room, ?_⟩
    cases known : (added calls).find? (wanted source dest) with
    | none => exact absurd (sound.read _ (filled.read_beyond known)) (lt_irrefl _)
    | some p =>
      have marked := sound.policer 0 .initialCodePt ⟨0, 0, source, dest, 0⟩ rfl rfl
      exact ⟨p, rfl, (filled.mark_iff room known _ _ rfl rfl).mp marked⟩
  · rintro ⟨room, p, known, policed⟩
    obtain ⟨k, _, index, bound, found⟩ := filled.lookup known
    refine ⟨fun first front => after_sizes policies policers front room, fun first call front full => ?_, filled.entries, ?_, ?_, ?_⟩
    · rw [after_snoc]
      cases call with
      | policy p => exact if_pos full
      | policer q =>
        have next := (after_sizes policies policers front room).2
        rw [after_snoc] at next
        exact absurd next (by show ¬_ + 1 ≤ MAX_CP; rw [show _ = MAX_CP from full]; omega)
    · rw [found, index]
    · intro i member
      rw [found] at member
      have within := (List.mem_range'_1.mp member).2
      omega
    · intro uniform verdict pkt sent due
      exact (filled.mark_iff room known uniform verdict sent due).mpr policed

/-- With zeros in the memory: the table of the policers grows beyond its array, a packet from 3 to 4 takes the place behind the only policy
into account, and a packet whose policy has no policer is policed all the same. -/
theorem unguarded :
    let c := constructed (fun _ => .blank) fun _ => .blank
    let policy : PolicySetup := .policy ⟨1, 2, 10, .null⟩
    let policers := policy :: List.replicate 41 (.policer ⟨.null, 10, 0, none⟩)
    (c.after policers).policerTableSize = 41 ∧ ¬Sound c policers 1 2 ∧
      ((c.after [policy]).getPolicyTableEntry 3 4).2 = [0, 1] ∧ ¬Sound c [policy] 3 4 ∧
      ((c.after [policy]).mark 0 .initialCodePt ⟨0, 7, 1, 2, 100⟩).map Prod.snd = some .nullPolicer ∧ ¬Sound c [policy] 1 2 := by
  intro c policy policers
  have grown : (c.after policers).policerTableSize = 41 := by decide +kernel
  have read : ((c.after [policy]).getPolicyTableEntry 3 4).2 = [0, 1] := by decide +kernel
  have null : ((c.after [policy]).mark 0 .initialCodePt ⟨0, 7, 1, 2, 100⟩).map Prod.snd = some .nullPolicer := by decide +kernel
  refine ⟨grown, fun sound => ?_, read, fun sound => ?_, null, fun sound => ?_⟩
  · have small := (sound.sizes policers (List.prefix_refl _)).2
    rw [grown] at small
    exact absurd small (by decide)
  · have inUse := sound.read 1 (by rw [read]; decide)
    exact absurd inUse (by decide)
  · obtain ⟨⟨after, marking⟩, marked, rfl⟩ := Option.map_eq_some_iff.mp null
    exact sound.policer 0 .initialCodePt ⟨0, 7, 1, 2, 100⟩ rfl rfl after marked

end PolicyClassifier

end Ns2
