import Ns2.Diffserv.PolicyEntry
import Ns2.Library.Machine
import Ns2.Library.NextChain

namespace Ns2

open NextChain

/-- `flow_entry` without its pointer. -/
structure FlowEntry where
  fid : ℤ
  srcId : ℤ
  dstId : ℤ
  lastUpdate : ℚ
  bytesSent : ℕ
  count : ℕ
deriving DecidableEq

/-- The flow table: the entries that have been made, with their `next` pointers beside them. -/
structure SFDPolicy where
  entry : ℕ → FlowEntry
  next : ℕ → Option ℕ
  head : Option ℕ
  tail : Option ℕ
  created : ℕ

/-- What the policy reads of a packet, with the clock. -/
structure FlowPacket where
  time : ℚ
  flowid : ℤ
  saddr : ℤ
  daddr : ℤ
  size : ℕ
deriving DecidableEq

namespace SFDPolicy

/-- `FLOW_TIME_OUT`. -/
def flowTimeOut : ℚ := 5

def empty : SFDPolicy where
  entry _ := ⟨0, 0, 0, 0, 0, 0⟩
  next _ := none
  head := none
  tail := none
  created := 0

def expired (now : ℚ) (e : FlowEntry) : Prop := e.lastUpdate + flowTimeOut < now

instance (now : ℚ) (e : FlowEntry) : Decidable (expired now e) := inferInstanceAs (Decidable (_ < _))

/-- A packet is added to the entry of its flow. -/
def sent (pkt : FlowPacket) (e : FlowEntry) : FlowEntry := { e with lastUpdate := pkt.time, bytesSent := e.bytesSent + pkt.size }

def newEntry (pkt : FlowPacket) : FlowEntry := ⟨pkt.flowid, pkt.saddr, pkt.daddr, pkt.time, pkt.size, 0⟩

/-- The loop of `applyMeter`, at `p` with `q` before it, and whether it has found the flow. `none`: it does not end in that many turns. -/
def walk (pkt : FlowPacket) : ℕ → SFDPolicy → Option ℕ → Option ℕ → Option (SFDPolicy × Bool)
  | 0, _, _, _ => none
  | _ + 1, s, none, _ => some (s, false)
  | n + 1, s, some p, q =>
    if (s.entry p).fid = pkt.flowid then some ({ s with entry := Function.update s.entry p (sent pkt (s.entry p)) }, true)
    else if expired pkt.time (s.entry p) then
      if s.head = some p then
        if s.tail = some p then walk pkt n { s with head := none, tail := none } none none
        else walk pkt n { s with head := s.next p } (s.next p) (s.next p)
      else
        match q with
        | none => none
        | some q =>
          let tail := if s.tail = some p then some q else s.tail
          walk pkt n { s with next := Function.update s.next q (s.next p), tail := tail } (s.next p) (some q)
    else walk pkt n s (s.next p) (some p)

/-- The new entry goes to the tail. -/
def insert (s : SFDPolicy) (e : FlowEntry) : SFDPolicy :=
  let next := Function.update s.next s.created none
  let s' : SFDPolicy := { s with entry := Function.update s.entry s.created e, next := next, created := s.created + 1, tail := some s.created }
  match s.tail with
  | some last => { s' with next := Function.update next last (some s.created) }
  | none => { s' with head := some s.created }

def applyMeter (s : SFDPolicy) (pkt : FlowPacket) : Option SFDPolicy := do
  let (s, found) ← walk pkt (s.created + 1) s s.head s.head
  return if found then s else s.insert (newEntry pkt)

/-- The entries from the head on. -/
def places (s : SFDPolicy) : List ℕ := follow s.next s.created s.head

/-- `uniform` is what `Random::uniform(0.0, 1.0)` gives. -/
def applyPolicer (s : SFDPolicy) (policy : PolicyTableEntry) (policer : PolicerTableEntry) (uniform : ℚ) (pkt : FlowPacket) :
    SFDPolicy × Mark :=
  match s.places.find? fun p => (s.entry p).fid = pkt.flowid with
  | none => (s, .initialCodePt)
  | some p =>
    if (s.entry p).bytesSent > policy.cir then
      if policer.downgrade2 = 0 then (s, .downgrade1)
      else if policer.downgrade2 = 1 then
        if uniform > 1 - policy.cir / (s.entry p).bytesSent then (s, .initialCodePt) else (s, .downgrade1)
      else if (s.entry p).count = 5 then
        ({ s with entry := Function.update s.entry p { s.entry p with count := 0 } }, .initialCodePt)
      else ({ s with entry := Function.update s.entry p { s.entry p with count := (s.entry p).count + 1 } }, .downgrade1)
    else (s, .initialCodePt)

/-- The list from head to tail consists of these entries. -/
structure Lists (s : SFDPolicy) (l : List ℕ) : Prop where
  chain : NextChain.Path s.next s.head l none
  last : s.tail = l.getLast?
  made : ∀ p ∈ l, p < s.created

variable {s t : SFDPolicy} {pkt : FlowPacket} {l front rest : List ℕ} {p q : Option ℕ} {x y : ℕ} {n : ℕ}

theorem Lists.length_le (lists : s.Lists l) : l.length ≤ s.created := by
  have within : l.toFinset ⊆ Finset.range s.created := fun p member => Finset.mem_range.mpr (lists.made p (List.mem_toFinset.mp member))
  have bounded := Finset.card_le_card within
  rwa [List.toFinset_card_of_nodup lists.chain.nodup, Finset.card_range] at bounded

theorem Lists.places (lists : s.Lists l) : s.places = l := lists.chain.follow lists.length_le

theorem Lists.head_iff (lists : s.Lists (front ++ x :: rest)) : s.head = some x ↔ front = [] := by
  cases front with
  | nil => exact iff_of_true lists.chain.1 rfl
  | cons y front =>
    refine iff_of_false (fun same => ?_) (List.cons_ne_nil y front)
    have repeated := (List.nodup_cons.mp lists.chain.nodup).1
    rw [lists.chain.1] at same
    cases same
    exact repeated (List.mem_append_right front List.mem_cons_self)

theorem Lists.tail_iff (lists : s.Lists (front ++ x :: rest)) : s.tail = some x ↔ rest = [] := by
  rw [lists.last]
  cases rest with
  | nil => exact iff_of_true (by simp) rfl
  | cons y rest =>
    refine iff_of_false (fun same => ?_) (List.cons_ne_nil y rest)
    have distinct := (List.nodup_append.mp lists.chain.nodup).2.1
    rw [List.getLast?_append_cons, List.getLast?_cons_cons] at same
    exact (List.nodup_cons.mp distinct).1 (List.mem_of_getLast? same)

/-- An entry behind the first is unlinked. -/
theorem Lists.unlink (lists : s.Lists (front ++ [y] ++ x :: rest)) :
    Lists { s with next := Function.update s.next y (s.next x), tail := if s.tail = some x then some y else s.tail } (front ++ [y] ++ rest) := by
  refine ⟨lists.chain.unlink, ?_, fun p member => lists.made p ?_⟩
  · simp only [lists.tail_iff]
    split_ifs with final
    · rw [final, List.append_nil, List.getLast?_append_cons, List.getLast?_singleton]
    · rw [lists.last, List.getLast?_append_of_ne_nil _ (List.cons_ne_nil x rest), List.getLast?_append_of_ne_nil _ final]
      exact List.getLast?_cons_of_ne_nil final
  · simp only [List.mem_append, List.mem_cons] at member ⊢
    tauto

/-- What the loop makes of the entries from some place on. -/
def passed (pkt : FlowPacket) : List FlowEntry → List FlowEntry × Bool
  | [] => ([], false)
  | e :: es =>
    if e.fid = pkt.flowid then (sent pkt e :: es, true)
    else if expired pkt.time e then passed pkt es
    else (e :: (passed pkt es).1, (passed pkt es).2)

/-- The loop leaves the entries before `rest` and what `passed` leaves of the others. -/
structure Walked (pkt : FlowPacket) (s t : SFDPolicy) (front rest : List ℕ) (found : Bool) : Prop where
  created : t.created = s.created
  listed : ∃ back, t.Lists (front ++ back) ∧ (front ++ back).map t.entry = front.map s.entry ++ (passed pkt (rest.map s.entry)).1 ∧
    found = (passed pkt (rest.map s.entry)).2

theorem map_entry_update {entry : ℕ → FlowEntry} {e : FlowEntry} (outside : x ∉ l) : l.map (Function.update entry x e) = l.map entry :=
  List.map_congr_left fun _ member => Function.update_of_ne (ne_of_mem_of_not_mem member outside) _ _

theorem Walked.record (lists : s.Lists (front ++ x :: rest)) (same : (s.entry x).fid = pkt.flowid) :
    Walked pkt s { s with entry := Function.update s.entry x (sent pkt (s.entry x)) } front (x :: rest) true := by
  have distinct := List.nodup_append.mp lists.chain.nodup
  have early : x ∉ front := fun member => distinct.2.2 x member x List.mem_cons_self rfl
  have late : x ∉ rest := (List.nodup_cons.mp distinct.2.1).1
  refine ⟨rfl, x :: rest, ⟨lists.chain, lists.last, lists.made⟩, ?_, ?_⟩
  · rw [List.map_append, List.map_cons, List.map_cons, map_entry_update early, map_entry_update late, passed, if_pos same]
    exact congrArg (_ ++ · :: _) (Function.update_self ..)
  · rw [List.map_cons, passed, if_pos same]

/-- An entry that has expired is gone before the loop goes on. -/
theorem Walked.drop {mid : SFDPolicy} {found : Bool} (walked : Walked pkt mid t front rest found) (entries : mid.entry = s.entry)
    (known : mid.created = s.created) (other : (s.entry x).fid ≠ pkt.flowid) (timedOut : expired pkt.time (s.entry x)) :
    Walked pkt s t front (x :: rest) found := by
  obtain ⟨created, back, lists, contents, same⟩ := walked
  rw [entries] at contents same
  refine ⟨created.trans known, back, lists, ?_, ?_⟩
  · rw [contents, List.map_cons, passed, if_neg other, if_pos timedOut]
  · rw [same, List.map_cons, passed, if_neg other, if_pos timedOut]

theorem Walked.keep {found : Bool} (walked : Walked pkt s t (front ++ [x]) rest found) (other : (s.entry x).fid ≠ pkt.flowid)
    (fresh : ¬expired pkt.time (s.entry x)) : Walked pkt s t front (x :: rest) found := by
  obtain ⟨created, back, lists, contents, same⟩ := walked
  refine ⟨created, x :: back, by simpa using lists, ?_, ?_⟩
  · rw [List.map_cons, passed, if_neg other, if_neg fresh]
    simpa using contents
  · rw [same, List.map_cons, passed, if_neg other, if_neg fresh]

theorem walk_spec (pkt : FlowPacket) (front : List ℕ) (lists : s.Lists (front ++ rest)) (here : p = rest.head?) (before : front ≠ [] → q = front.getLast?)
    (enough : rest.length < n) : ∃ t found, walk pkt n s p q = some (t, found) ∧ Walked pkt s t front rest found := by
  induction rest generalizing s front p q n with
  | nil =>
    obtain ⟨n, rfl⟩ := Nat.exists_eq_add_one_of_ne_zero (Nat.ne_zero_of_lt enough)
    cases here
    exact ⟨s, false, rfl, rfl, [], lists, by simp [passed], rfl⟩
  | cons x rest ih =>
    obtain ⟨n, rfl⟩ := Nat.exists_eq_add_one_of_ne_zero (Nat.ne_zero_of_lt enough)
    cases here
    have fewer : rest.length < n := Nat.lt_of_succ_lt_succ enough
    obtain ⟨_, _, here, onward⟩ := path_append.mp lists.chain
    cases here
    have later : s.next x = rest.head? := by
      cases rest with
      | nil => exact onward
      | cons y rest => exact onward.1
    rw [List.head?_cons, walk.eq_def]
    dsimp only
    by_cases same : (s.entry x).fid = pkt.flowid
    · rw [if_pos same]
      exact ⟨_, true, rfl, .record lists same⟩
    rw [if_neg same]
    by_cases late : expired pkt.time (s.entry x)
    · rw [if_pos late]
      rcases List.eq_nil_or_concat front with rfl | ⟨before', y, rfl⟩
      · rw [if_pos (lists.head_iff.mpr rfl)]
        have made : ∀ p ∈ rest, p < s.created := fun p member => lists.made p (List.mem_cons_of_mem x member)
        by_cases final : rest = []
        · subst final
          rw [if_pos (lists.tail_iff.mpr rfl)]
          obtain ⟨t, found, done, walked⟩ := ih (s := { s with head := none, tail := none }) (p := none) (q := none) []
            ⟨rfl, rfl, made⟩ rfl (absurd rfl) fewer
          exact ⟨t, found, done, walked.drop rfl rfl same late⟩
        · rw [if_neg (lists.tail_iff.not.mpr final)]
          have last : s.tail = rest.getLast? := by
            rw [lists.last]
            exact List.getLast?_cons_of_ne_nil final
          obtain ⟨t, found, done, walked⟩ := ih (s := { s with head := s.next x }) (q := s.next x) [] ⟨onward, last, made⟩ later
            (absurd rfl) fewer
          exact ⟨t, found, done, walked.drop rfl rfl same late⟩
      · rw [if_neg (lists.head_iff.not.mpr (by simp)), before (by simp), List.concat_eq_append, List.getLast?_append_cons,
          List.getLast?_singleton]
        rw [List.concat_eq_append] at lists
        obtain ⟨t, found, done, walked⟩ := ih _ lists.unlink later (fun _ => (List.getLast?_append_cons ..).symm) fewer
        exact ⟨t, found, done, walked.drop rfl rfl same late⟩
    · rw [if_neg late]
      obtain ⟨t, found, done, walked⟩ := ih (q := some x) (front ++ [x]) (by simpa using lists) later (fun _ => by simp) fewer
      exact ⟨t, found, done, walked.keep same late⟩

theorem Lists.insert (lists : s.Lists l) (e : FlowEntry) :
    (s.insert e).Lists (l ++ [s.created]) ∧ (l ++ [s.created]).map (s.insert e).entry = l.map s.entry ++ [e] := by
  have outside : s.created ∉ l := fun member => lt_irrefl _ (lists.made _ member)
  have entries : (s.insert e).entry = Function.update s.entry s.created e := by
    unfold SFDPolicy.insert
    cases s.tail <;> rfl
  have within : ∀ p ∈ l ++ [s.created], p < s.created + 1 := by
    intro p member
    rcases List.mem_append.mp member with old | new
    · exact (lists.made p old).trans (Nat.lt_succ_self _)
    · rw [List.mem_singleton.mp new]
      exact Nat.lt_succ_self _
  have chain := lists.chain.update outside none
  constructor
  · rcases List.eq_nil_or_concat l with rfl | ⟨front, y, rfl⟩
    · have none : s.tail = none := lists.last
      simp only [SFDPolicy.insert, none]
      exact ⟨⟨rfl, Function.update_self ..⟩, rfl, within⟩
    · rw [List.concat_eq_append] at lists within outside chain ⊢
      have some : s.tail = some y := by rw [lists.last, List.getLast?_append_cons, List.getLast?_singleton]
      simp only [SFDPolicy.insert, some]
      exact ⟨chain.link outside (Function.update_self ..), by simp, within⟩
  · rw [entries, List.map_append, map_entry_update outside, List.map_singleton, Function.update_self]

/-- The time of the last packet of a flow and its bytes, if the flow is recorded. -/
def lookup (f : ℤ) (es : List FlowEntry) : Option (ℚ × ℕ) := (es.find? fun e => e.fid = f).map fun e => (e.lastUpdate, e.bytesSent)

variable {es : List FlowEntry} {e : FlowEntry} {f : ℤ} {last : ℚ} {bytes : ℕ}

theorem lookup_nil : lookup f [] = none := rfl

theorem lookup_cons : lookup f (e :: es) = if e.fid = f then some (e.lastUpdate, e.bytesSent) else lookup f es := by
  rw [lookup, List.find?_cons]
  by_cases same : e.fid = f
  · simp [same]
  · simp [same, lookup]

theorem lookup_eq_none : lookup f es = none ↔ f ∉ es.map FlowEntry.fid := by
  induction es with
  | nil => simp [lookup_nil]
  | cons e es ih =>
    rw [lookup_cons, List.map_cons, List.mem_cons, not_or, ← ih]
    split_ifs with same
    · simp [same]
    · simp [Ne.symm same]

theorem lookup_append_singleton (new : lookup f es = none) : lookup f (es ++ [e]) = if e.fid = f then some (e.lastUpdate, e.bytesSent) else none := by
  induction es with
  | nil => rw [List.nil_append, lookup_cons, lookup_nil]
  | cons e' es ih =>
    rw [lookup_cons] at new
    split_ifs at new with other
    rw [List.cons_append, lookup_cons, if_neg other, ih new]

theorem sent_fid : (sent pkt e).fid = e.fid := rfl

theorem passed_fids (pkt : FlowPacket) (es : List FlowEntry) : ((passed pkt es).1.map FlowEntry.fid).Sublist (es.map FlowEntry.fid) := by
  induction es with
  | nil => exact .slnil
  | cons e es ih =>
    rw [passed]
    split_ifs
    · exact .refl _
    · exact ih.cons e.fid
    · exact ih.cons_cons e.fid

theorem passed_found : (passed pkt es).2 = (lookup pkt.flowid es).isSome := by
  induction es with
  | nil => rfl
  | cons e es ih =>
    rw [passed, lookup_cons]
    split_ifs
    · rfl
    · exact ih
    · exact ih

theorem passed_own (known : lookup pkt.flowid es = some (last, bytes)) :
    lookup pkt.flowid (passed pkt es).1 = some (pkt.time, bytes + pkt.size) := by
  induction es with
  | nil => cases known
  | cons e es ih =>
    rw [lookup_cons] at known
    rw [passed]
    split_ifs at known ⊢ with same timedOut
    · cases known
      rw [lookup_cons]
      exact if_pos same
    · exact ih known
    · rw [lookup_cons, if_neg same]
      exact ih known

/-- What becomes of the record of another flow. -/
def Spared (now : ℚ) (before after : Option (ℚ × ℕ)) : Prop :=
  after = before ∨ after = none ∧ ∃ last bytes, before = some (last, bytes) ∧ last + flowTimeOut < now

theorem passed_other (distinct : (es.map FlowEntry.fid).Nodup) (other : f ≠ pkt.flowid) :
    Spared pkt.time (lookup f es) (lookup f (passed pkt es).1) := by
  induction es with
  | nil => exact Or.inl rfl
  | cons e es ih =>
    obtain ⟨new, rest⟩ := List.nodup_cons.mp distinct
    rw [passed]
    split_ifs with same timedOut
    · left
      have apart : e.fid ≠ f := fun own => other (own.symm.trans same)
      rw [lookup_cons, lookup_cons, sent_fid, if_neg apart, if_neg apart]
    · rw [lookup_cons]
      split_ifs with own
      · right
        subst own
        refine ⟨lookup_eq_none.mpr fun member => new ((passed_fids _ _).subset member), _, _, rfl, timedOut⟩
      · exact ih rest
    · rw [lookup_cons, lookup_cons]
      split_ifs
      · exact Or.inl rfl
      · exact ih rest

/-- The list holds one entry for each flow that is recorded, and the tail is its last element. -/
def Tabled (s : SFDPolicy) : Prop := ∃ l, s.Lists l ∧ ((l.map s.entry).map FlowEntry.fid).Nodup

/-- What is recorded for a flow. -/
def record (s : SFDPolicy) (f : ℤ) : Option (ℚ × ℕ) := lookup f (s.places.map s.entry)

/-- What a packet makes of the record of its flow. -/
def recorded (pkt : FlowPacket) : Option (ℚ × ℕ) → ℚ × ℕ
  | some (_, bytes) => (pkt.time, bytes + pkt.size)
  | none => (pkt.time, pkt.size)

theorem tabled_empty : Tabled empty := ⟨[], ⟨rfl, rfl, List.forall_mem_nil _⟩, List.nodup_nil⟩

theorem applyMeter_spec (tabled : s.Tabled) (pkt : FlowPacket) : ∃ t, s.applyMeter pkt = some t ∧ t.Tabled ∧
    t.record pkt.flowid = some (recorded pkt (s.record pkt.flowid)) ∧
    ∀ f ≠ pkt.flowid, Spared pkt.time (s.record f) (t.record f) := by
  obtain ⟨l, lists, distinct⟩ := tabled
  have start : s.head = l.head? := by
    cases l with
    | nil => exact lists.chain
    | cons x l => exact lists.chain.1
  obtain ⟨t, found, done, _, back, after, contents, same⟩ := walk_spec (q := s.head) pkt [] (show s.Lists ([] ++ l) from lists) start
    (absurd rfl) (Nat.lt_succ_of_le lists.length_le)
  simp only [List.nil_append, List.map_nil] at after contents
  have kept := distinct.sublist (passed_fids pkt _)
  rw [passed_found] at same
  simp only [applyMeter, done, Option.bind_eq_bind, Option.bind_some, Option.pure_def, Option.some.injEq, exists_eq_left']
  simp only [record, lists.places]
  cases known : lookup pkt.flowid (l.map s.entry) with
  | some now =>
    obtain rfl : found = true := by rw [same, known]; rfl
    rw [if_pos rfl, after.places, contents]
    refine ⟨⟨back, after, by rwa [contents]⟩, passed_own known, fun f other => passed_other distinct other⟩
  | none =>
    obtain rfl : found = false := by rw [same, known]; rfl
    obtain ⟨listed, entries⟩ := after.insert (newEntry pkt)
    rw [if_neg Bool.false_ne_true, listed.places, entries, contents]
    have absent : lookup pkt.flowid (passed pkt (l.map s.entry)).1 = none :=
      lookup_eq_none.mpr fun member => lookup_eq_none.mp known ((passed_fids _ _).subset member)
    refine ⟨⟨_, listed, ?_⟩, ?_, fun f other => ?_⟩
    · rw [entries, contents, List.map_append, List.map_singleton]
      exact List.nodup_append_comm.mp (List.nodup_cons.mpr ⟨lookup_eq_none.mp absent, kept⟩)
    · rw [lookup_append_singleton absent]
      exact if_pos rfl
    · have unchanged : lookup f ((passed pkt (l.map s.entry)).1 ++ [newEntry pkt]) = lookup f (passed pkt (l.map s.entry)).1 := by
        rw [lookup, List.find?_append, List.find?_singleton, if_neg (by simp [newEntry, other.symm]), Option.or_none, lookup]
      rw [unchanged]
      exact passed_other distinct other

theorem applyPolicer_spec (tabled : s.Tabled) (policy : PolicyTableEntry) (policer : PolicerTableEntry) (uniform : ℚ) (pkt : FlowPacket) :
    (s.applyPolicer policy policer uniform pkt).1.Tabled ∧ ∀ f, (s.applyPolicer policy policer uniform pkt).1.record f = s.record f := by
  have counted (p c : ℕ) : Tabled { s with entry := Function.update s.entry p { s.entry p with count := c } } ∧
      ∀ f, record { s with entry := Function.update s.entry p { s.entry p with count := c } } f = s.record f := by
    have fids (x : ℕ) : (Function.update s.entry p { s.entry p with count := c } x).fid = (s.entry x).fid := by
      rcases eq_or_ne x p with rfl | other
      · rw [Function.update_self]
      · rw [Function.update_of_ne other]
    have accounts (x : ℕ) : ((Function.update s.entry p { s.entry p with count := c } x).lastUpdate,
        (Function.update s.entry p { s.entry p with count := c } x).bytesSent) = ((s.entry x).lastUpdate, (s.entry x).bytesSent) := by
      rcases eq_or_ne x p with rfl | other
      · rw [Function.update_self]
      · rw [Function.update_of_ne other]
    obtain ⟨l, lists, distinct⟩ := tabled
    refine ⟨⟨l, ⟨lists.chain, lists.last, lists.made⟩, ?_⟩, fun f => ?_⟩
    · rw [List.map_map] at distinct ⊢
      rwa [show FlowEntry.fid ∘ Function.update s.entry p { s.entry p with count := c } = FlowEntry.fid ∘ s.entry from funext fids]
    · show lookup f (s.places.map _) = lookup f (s.places.map _)
      induction s.places with
      | nil => rfl
      | cons x l ih => rw [List.map_cons, List.map_cons, lookup_cons, lookup_cons, fids, accounts, ih]
  unfold applyPolicer
  split
  · exact ⟨tabled, fun _ => rfl⟩
  · split_ifs
    · exact ⟨tabled, fun _ => rfl⟩
    · exact ⟨tabled, fun _ => rfl⟩
    · exact ⟨tabled, fun _ => rfl⟩
    · exact counted _ 0
    · exact counted _ _
    · exact ⟨tabled, fun _ => rfl⟩

/-- A packet that is metered and then policed. -/
structure Policed where
  packet : FlowPacket
  policy : PolicyTableEntry
  policer : PolicerTableEntry
  uniform : ℚ

def component : Machine SFDPolicy Policed Mark where
  step s i := do
    let t ← s.applyMeter i.packet
    return t.applyPolicer i.policy i.policer i.uniform i.packet

/-- The times and the sizes of the packets of a flow. -/
def ofFlow (f : ℤ) (inputs : List Policed) : List (ℚ × ℕ) :=
  inputs.filterMap fun i => if i.packet.flowid = f then some (i.packet.time, i.packet.size) else none

/-- The `bytes_sent` of a flow after each of its packets. -/
def log (f : ℤ) (s : SFDPolicy) (inputs : List Policed) : List (Option ℕ) :=
  component.history (fun s i => if i.packet.flowid = f then [((s.applyMeter i.packet).bind fun t => t.record f).map Prod.snd] else []) s inputs

/-- The bytes of a flow since it has last been idle for longer than the time-out, after each of its packets. -/
def sinceIdle : Option (ℚ × ℕ) → List (ℚ × ℕ) → List ℕ
  | _, [] => []
  | none, (time, size) :: rest => size :: sinceIdle (some (time, size)) rest
  | some (last, bytes), (time, size) :: rest =>
    let bytes := if last + flowTimeOut < time then size else bytes + size
    bytes :: sinceIdle (some (time, bytes)) rest

/-- The packet does not find bytes in an entry of its flow that has expired. -/
def Timely (f : ℤ) (s : SFDPolicy) (i : Policed) : Prop :=
  i.packet.flowid = f → ∀ r ∈ s.record f, r.1 + flowTimeOut < i.packet.time → r.2 = 0

instance (f : ℤ) (s : SFDPolicy) (i : Policed) : Decidable (Timely f s i) := inferInstanceAs (Decidable (_ → _))

def InOrder (inputs : List Policed) : Prop := (inputs.map fun i => i.packet.time).Pairwise (· ≤ ·)

instance (inputs : List Policed) : Decidable (InOrder inputs) := inferInstanceAs (Decidable (List.Pairwise _ _))

theorem step_spec (tabled : s.Tabled) (i : Policed) : ∃ t mark, component.step s i = some (t, mark) ∧ t.Tabled ∧
    ((s.applyMeter i.packet).bind fun t => t.record i.packet.flowid) = some (recorded i.packet (s.record i.packet.flowid)) ∧
    t.record i.packet.flowid = some (recorded i.packet (s.record i.packet.flowid)) ∧
    ∀ f ≠ i.packet.flowid, Spared i.packet.time (s.record f) (t.record f) := by
  obtain ⟨mid, metered, tabled, own, others⟩ := applyMeter_spec tabled i.packet
  obtain ⟨after, same⟩ := applyPolicer_spec tabled i.policy i.policer i.uniform i.packet
  have taken : component.step s i = some (mid.applyPolicer i.policy i.policer i.uniform i.packet) := by
    show (s.applyMeter i.packet >>= _) = _
    rw [metered]
    rfl
  exact ⟨_, _, taken, after, by rw [metered, Option.bind_some, own], (same _).trans own, fun f other => (same f).symm ▸ others f other⟩

theorem Spared.trans {now later : ℚ} {known mid after : Option (ℚ × ℕ)} (first : Spared now known mid) (order : now ≤ later)
    (second : Spared later mid after) : Spared later known after := by
  rcases first with rfl | ⟨rfl, last, bytes, here, idle⟩
  · exact second
  · rcases second with rfl | ⟨_, _, _, absurd, _⟩
    · exact Or.inr ⟨rfl, last, bytes, here, idle.trans_le order⟩
    · cases absurd

variable {inputs : List Policed}

/-- The record of a flow is the account of its bytes up to the first packet that comes too late. -/
theorem log_eq_iff (now : ℚ) (known : Option (ℚ × ℕ)) (tabled : s.Tabled) (spared : Spared now known (s.record f))
    (ordered : (now :: inputs.map fun i => i.packet.time).Pairwise (· ≤ ·)) :
    log f s inputs = (sinceIdle known (ofFlow f inputs)).map some ↔ component.Along (Timely f) s inputs := by
  induction inputs generalizing s now known with
  | nil => cases known <;> exact iff_of_true rfl trivial
  | cons i inputs ih =>
    obtain ⟨first, rest⟩ := List.pairwise_cons.mp ordered
    have later : now ≤ i.packet.time := first _ List.mem_cons_self
    obtain ⟨t, mark, taken, after, found, own, others⟩ := step_spec tabled i
    have onward := fun known spared => ih (s := t) i.packet.time known after spared rest
    rw [log, Machine.history, Machine.Along, taken]
    by_cases same : i.packet.flowid = f
    · subst same
      rw [ofFlow, List.filterMap_cons, if_pos rfl, if_pos rfl, found]
      rcases spared with agreed | ⟨gone, last, bytes, rfl, idle⟩
      · cases known with
        | none =>
          rw [agreed] at own ⊢
          have timely : Timely i.packet.flowid s i := fun _ r member => by rw [agreed] at member; cases member
          exact (List.cons_inj_right _).trans ((onward _ (Or.inl own)).trans (and_iff_right timely).symm)
        | some r =>
          obtain ⟨last, bytes⟩ := r
          have timely : Timely i.packet.flowid s i ↔ (last + flowTimeOut < i.packet.time → bytes = 0) := by
            simp [Timely, agreed]
          rw [agreed] at own ⊢
          refine (List.cons_eq_cons ..).trans ?_
          rw [timely]
          have head : some (bytes + i.packet.size) = some (if last + flowTimeOut < i.packet.time then i.packet.size else bytes + i.packet.size) ↔
              (last + flowTimeOut < i.packet.time → bytes = 0) := by
            split_ifs with idle <;> simp [idle]
          refine (and_congr_left' head).trans (and_congr_right fun met => ?_)
          refine onward _ (Or.inl (own.trans ?_))
          rw [← Option.some.inj (head.mpr met)]
          rfl
      · rw [gone] at own ⊢
        have timely : Timely i.packet.flowid s i := fun _ r member => by rw [gone] at member; cases member
        rw [sinceIdle, if_pos (idle.trans_le later)]
        exact (List.cons_inj_right _).trans ((onward _ (Or.inl own)).trans (and_iff_right timely).symm)
    · have timely : Timely f s i := fun own => absurd own same
      rw [ofFlow, List.filterMap_cons, if_neg same, if_neg same, and_iff_right timely]
      exact onward known (spared.trans later (others f (Ne.symm same)))

theorem log_eq_iff_of_inOrder (f : ℤ) (ordered : InOrder inputs) :
    log f empty inputs = (sinceIdle none (ofFlow f inputs)).map some ↔ component.Along (Timely f) empty inputs := by
  cases inputs with
  | nil => exact iff_of_true rfl trivial
  | cons i inputs =>
    refine log_eq_iff i.packet.time _ tabled_empty (Or.inl rfl) (List.pairwise_cons.mpr ⟨?_, ordered⟩)
    exact List.forall_mem_cons.mpr ⟨le_rfl, (List.pairwise_cons.mp ordered).1⟩

theorem step_kept (tabled : s.Tabled) (i : Policed) : ∃ t mark, component.step s i = some (t, mark) ∧ t.Tabled := by
  obtain ⟨t, mark, taken, after, _⟩ := step_spec tabled i
  exact ⟨t, mark, taken, after⟩

/-- Every run comes to its end, and the table is in order all along. -/
theorem run_tabled (inputs : List Policed) : (component.run empty inputs).isSome ∧ component.Throughout Tabled empty inputs := by
  constructor
  · obtain ⟨last, marks, run, _⟩ := component.run_invariant (P := fun _ _ => True) (fun s i tabled _ => step_kept tabled i) tabled_empty
      (component.along_trivial empty inputs)
    rw [run]
    rfl
  · intro first rest last marks _ run
    refine Machine.run_kept (P := fun _ _ => True) (fun s i next mark tabled _ taken => ?_) tabled_empty
      (component.along_trivial empty first) run
    obtain ⟨t, mark', taken', after⟩ := step_kept tabled i
    cases taken.symm.trans taken'
    exact after

/-- What the policy promises for a flow in two runs. -/
structure Independent (f : ℤ) (a b : List Policed) : Prop where
  ends : (component.run empty a).isSome ∧ (component.run empty b).isSome
  tabled : component.Throughout Tabled empty a ∧ component.Throughout Tabled empty b
  same : log f empty a = log f empty b
  accounted : log f empty a = (sinceIdle none (ofFlow f a)).map some

/-- For a flow with the same packets in both runs, exactly those keep the promise in which no packet of the flow adds to an entry that has
expired and that no packet of another flow has taken out. -/
theorem independent_iff (f : ℤ) {a b : List Policed} (ordered : InOrder a) (ordered' : InOrder b) (same : ofFlow f a = ofFlow f b) :
    Independent f a b ↔ component.Along (Timely f) empty a ∧ component.Along (Timely f) empty b := by
  rw [← log_eq_iff_of_inOrder f ordered, ← log_eq_iff_of_inOrder f ordered', ← same]
  constructor
  · intro independent
    exact ⟨independent.accounted, independent.same ▸ independent.accounted⟩
  · rintro ⟨first, second⟩
    exact ⟨⟨(run_tabled a).1, (run_tabled b).1⟩, ⟨(run_tabled a).2, (run_tabled b).2⟩, first.trans second.symm, first⟩

/-- A packet of 100 bytes. -/
def samplePacket (time : ℚ) (flowid : ℤ) : Policed where
  packet := ⟨time, flowid, 1, 2, 100⟩
  policy := PolicyTableEntry.blank.filled 1 2 10 (.SFD 1000)
  policer := ⟨.SFDPolicer, 10, 11, 0, .SFD⟩
  uniform := 0

/-- Flow 1 is idle for six seconds, and a packet of flow 2 comes before it is back. -/
theorem independent_sample : Independent 1 [samplePacket 0 1, samplePacket 6 2, samplePacket 6 1]
    [samplePacket 0 1, samplePacket 1 3, samplePacket 6 4, samplePacket 6 1] :=
  (independent_iff 1 (by decide +kernel) (by decide +kernel) (by decide +kernel)).mpr (by decide +kernel)

/-- In the second run nothing comes in between, and 200 bytes are recorded where the first run records 100. -/
theorem expired_kept : InOrder [samplePacket 0 1, samplePacket 6 2, samplePacket 6 1] ∧ InOrder [samplePacket 0 1, samplePacket 6 1] ∧
    ofFlow 1 [samplePacket 0 1, samplePacket 6 2, samplePacket 6 1] = ofFlow 1 [samplePacket 0 1, samplePacket 6 1] ∧
    log 1 empty [samplePacket 0 1, samplePacket 6 2, samplePacket 6 1] = [some 100, some 100] ∧
    log 1 empty [samplePacket 0 1, samplePacket 6 1] = [some 100, some 200] ∧
    ¬Independent 1 [samplePacket 0 1, samplePacket 6 2, samplePacket 6 1] [samplePacket 0 1, samplePacket 6 1] := by
  have first : log 1 empty [samplePacket 0 1, samplePacket 6 2, samplePacket 6 1] = [some 100, some 100] := by decide +kernel
  have second : log 1 empty [samplePacket 0 1, samplePacket 6 1] = [some 100, some 200] := by decide +kernel
  refine ⟨by decide +kernel, by decide +kernel, by decide +kernel, first, second, fun independent => ?_⟩
  have equal := independent.same
  rw [first, second] at equal
  exact absurd equal (by decide)

end SFDPolicy

end Ns2
