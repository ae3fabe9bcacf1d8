import Ns2.Dsr.MobiCache
import Ns2.Library.Ring

namespace Ns2

structure RequestEntry where
  macId : DsrId
  netId : DsrId
  reqNum : ℤ
  lastArp : ℚ
  rtReqsOutstanding : ℤ
  lastRtReq : ℚ

structure RequestTable where
  table : ℕ → RequestEntry
  size : ℕ
  ptr : ℕ
  /-- `rt_rq_period`, which is global. -/
  rtRqPeriod : ℚ

/-- The calls of the table. -/
inductive RequestCall
  | get (id : DsrId)
  | getEntry (id : DsrId)
  | insertNet (netId : DsrId) (reqNum : ℤ)
  | insert (netId macId : DsrId) (reqNum : ℤ)

def DsrId.Valid (id : DsrId) : Prop := id.type ≠ .none

instance (id : DsrId) : Decidable id.Valid := inferInstanceAs (Decidable (_ ≠ _))

namespace RequestCall

/-- The id that `find` compares with `net_id`. -/
def netId : RequestCall → DsrId
  | get id | getEntry id | insertNet id _ | insert id _ _ => id

/-- The id that `find` compares with `MAC_id`. -/
def macId : RequestCall → DsrId
  | get id | getEntry id => id
  | insertNet _ _ => invalidAddr
  | insert _ macId _ => macId

def Valid : RequestCall → Prop
  | get id | getEntry id | insertNet id _ => id.Valid
  | insert netId macId _ => netId.Valid ∧ macId.Valid

instance : ∀ call : RequestCall, Decidable call.Valid
  | get id | getEntry id | insertNet id _ => inferInstanceAs (Decidable id.Valid)
  | insert _ _ _ => inferInstanceAs (Decidable (_ ∧ _))

end RequestCall

namespace RequestTable

/-- The constructor of `ID` sets the type and not the address. -/
def constructed (size : ℕ) (rtRqPeriod : ℚ) (memory : ℕ → RequestEntry) : RequestTable where
  table c := { memory c with macId := ⟨(memory c).macId.addr, .none⟩, netId := ⟨(memory c).netId.addr, .none⟩ }
  size := size
  ptr := 0
  rtRqPeriod := rtRqPeriod

/-- `none` where the code returns `size`. -/
def find (s : RequestTable) (netId macId : DsrId) : Option ℕ :=
  (List.range s.size).find? fun c => (s.table c).netId = netId ∨ (s.table c).macId = macId

def getReqNum (s : RequestTable) (id : DsrId) : ℤ :=
  match s.find id id with
  | none => 0
  | some c => (s.table c).reqNum

def newEntry (s : RequestTable) (netId macId : DsrId) (reqNum : ℤ) : RequestEntry where
  macId := macId
  netId := netId
  reqNum := reqNum
  lastArp := 0
  rtReqsOutstanding := 0
  lastRtReq := -(s.rtRqPeriod + 1)

/-- The entry at `ptr` is overwritten. -/
def create (s : RequestTable) (netId macId : DsrId) (reqNum : ℤ) : RequestTable :=
  { s with table := Function.update s.table s.ptr (s.newEntry netId macId reqNum), ptr := (s.ptr + 1) % s.size }

/-- With the place of the entry that is returned. -/
def getEntry (s : RequestTable) (id : DsrId) : RequestTable × ℕ :=
  match s.find id id with
  | none => (s.create id invalidAddr 0, s.ptr)
  | some c => (s, c)

/-- What `insert` makes of an entry that it finds. -/
def renewed (macId : DsrId) (reqNum : ℤ) (e : RequestEntry) : RequestEntry :=
  { e with macId := if e.macId = invalidAddr then macId else e.macId, reqNum := reqNum }

def insert (s : RequestTable) (netId macId : DsrId) (reqNum : ℤ) : RequestTable :=
  match s.find netId macId with
  | none => s.create netId macId reqNum
  | some c => { s with table := Function.update s.table c (renewed macId reqNum (s.table c)) }

def insertNet (s : RequestTable) (netId : DsrId) (reqNum : ℤ) : RequestTable := s.insert netId invalidAddr reqNum

def component : Machine RequestTable RequestCall (Option ℤ) where
  step s
    | .get id => some (s, some (s.getReqNum id))
    | .getEntry id => some ((s.getEntry id).1, none)
    | .insertNet netId reqNum => some (s.insertNet netId reqNum, none)
    | .insert netId macId reqNum => some (s.insert netId macId reqNum, none)

/-- An entry that has the MAC id and not the net id comes behind one with the net id. -/
def Apart (s : RequestTable) (netId macId : DsrId) : Prop :=
  ∀ c < s.size, (s.table c).macId = macId → (s.table c).netId ≠ netId → ∃ b < c, (s.table b).netId = netId

instance (s : RequestTable) (netId macId : DsrId) : Decidable (s.Apart netId macId) := inferInstanceAs (Decidable (∀ c < _, _))

/-- The MAC id of the call does not lead it to the entry of another id. -/
def Unmixed (s : RequestTable) (call : RequestCall) : Prop := s.Apart call.netId call.macId

instance (s : RequestTable) (call : RequestCall) : Decidable (s.Unmixed call) := inferInstanceAs (Decidable (s.Apart _ _))

end RequestTable

/-- The ids with their numbers, in the order in which they have come in. -/
abbrev RecentIds := List (DsrId × ℤ)

namespace RecentIds

def number (l : RecentIds) (id : DsrId) : ℤ := ((l.find? fun x => x.1 = id).map Prod.snd).getD 0

/-- Only the newest `size` ids stay. -/
def create (size : ℕ) (l : RecentIds) (id : DsrId) (n : ℤ) : RecentIds := (l ++ [(id, n)]).drop (l.length + 1 - size)

def assign (l : RecentIds) (id : DsrId) (n : ℤ) : RecentIds := l.map fun x => if x.1 = id then (id, n) else x

def put (size : ℕ) (l : RecentIds) (id : DsrId) (n : ℤ) : RecentIds :=
  if id ∈ l.map Prod.fst then l.assign id n else l.create size id n

/-- A map that holds the `size` ids that have come in last. -/
def component (size : ℕ) : Machine RecentIds RequestCall (Option ℤ) where
  step l
    | .get id => some (l, some (l.number id))
    | .getEntry id => some (if id ∈ l.map Prod.fst then l else l.create size id 0, none)
    | .insertNet netId reqNum => some (l.put size netId reqNum, none)
    | .insert netId _ reqNum => some (l.put size netId reqNum, none)

variable {l : RecentIds} {id : DsrId} {n : ℤ}

theorem number_of_mem (member : (id, n) ∈ l) (only : ∀ x ∈ l, x.1 = id → x.2 = n) : l.number id = n := by
  cases known : l.find? fun x => x.1 = id with
  | none =>
    have missed := List.find?_eq_none.mp known _ member
    simp at missed
  | some x =>
    rw [number, known]
    exact only x (List.mem_of_find?_eq_some known) (by simpa using List.find?_some known)

theorem number_of_notMem (absent : id ∉ l.map Prod.fst) : l.number id = 0 := by
  have none : (l.find? fun x => x.1 = id) = none :=
    List.find?_eq_none.mpr fun x member => by simpa using fun same : x.1 = id => absent (same ▸ List.mem_map_of_mem member)
  rw [number, none]
  rfl

end RecentIds

namespace RequestTable

/-- The id and the number of an entry that has been created. -/
def view (e : RequestEntry) : Option (DsrId × ℤ) := if e.netId.Valid then some (e.netId, e.reqNum) else none

/-- From `ptr` on the ring holds the entries that have not been used and then those of the map, and each id once. -/
structure Holds (s : RequestTable) (l : RecentIds) : Prop where
  ptr : s.ptr < s.size
  fits : l.length ≤ s.size
  ring : ∃ slots, slots.length = s.size ∧ Ring.Laid s.size s.table s.ptr slots ∧
    slots.map view = List.replicate (s.size - l.length) none ++ l.map some
  distinct : ∀ b < s.size, ∀ c < s.size, (s.table b).netId = (s.table c).netId → (s.table b).netId.Valid → b = c

variable {s : RequestTable} {l : RecentIds} {call : RequestCall} {netId macId : DsrId} {reqNum : ℤ} {c : ℕ}

theorem Holds.mem_iff (holds : s.Holds l) {x : DsrId × ℤ} : x ∈ l ↔ ∃ c < s.size, view (s.table c) = some x := by
  obtain ⟨slots, length, laid, views⟩ := holds.ring
  have listed : x ∈ l ↔ some x ∈ slots.map view := by
    rw [views, List.mem_append, List.mem_replicate]
    simp
  rw [listed, List.mem_map]
  constructor
  · rintro ⟨e, member, here⟩
    obtain ⟨c, high, rfl⟩ := (laid.mem_iff length holds.ptr).mp member
    exact ⟨c, high, here⟩
  · rintro ⟨c, high, here⟩
    exact ⟨s.table c, (laid.mem_iff length holds.ptr).mpr ⟨c, high, rfl⟩, here⟩

theorem view_eq_some {e : RequestEntry} {x : DsrId × ℤ} : view e = some x ↔ e.netId.Valid ∧ (e.netId, e.reqNum) = x := by
  unfold view
  split_ifs with valid
  · simp [valid]
  · simp [valid]

theorem Holds.mem_fst_iff (holds : s.Holds l) (valid : netId.Valid) :
    netId ∈ l.map Prod.fst ↔ ∃ c < s.size, (s.table c).netId = netId := by
  rw [List.mem_map]
  constructor
  · rintro ⟨x, member, rfl⟩
    obtain ⟨c, high, here⟩ := holds.mem_iff.mp member
    obtain ⟨_, rfl⟩ := view_eq_some.mp here
    exact ⟨c, high, rfl⟩
  · rintro ⟨c, high, rfl⟩
    exact ⟨_, holds.mem_iff.mpr ⟨c, high, view_eq_some.mpr ⟨valid, rfl⟩⟩, rfl⟩

/-- A lookup whose ids are apart finds the entry of the net id, or none if there is no such entry. -/
theorem Holds.found (holds : s.Holds l) (valid : netId.Valid) (apart : s.Apart netId macId) :
    (∃ c < s.size, s.find netId macId = some c ∧ (s.table c).netId = netId ∧ netId ∈ l.map Prod.fst) ∨
      s.find netId macId = none ∧ (∀ c < s.size, (s.table c).netId ≠ netId) ∧ netId ∉ l.map Prod.fst := by
  rw [holds.mem_fst_iff valid]
  cases known : s.find netId macId with
  | none =>
    have absent : ∀ c < s.size, (s.table c).netId ≠ netId := by
      intro c high same
      have missed := List.find?_eq_none.mp known c (List.mem_range.mpr high)
      simp [same] at missed
    exact Or.inr ⟨rfl, absent, fun ⟨c, high, own⟩ => absent c high own⟩
  | some c =>
    obtain ⟨hit, within, first⟩ := List.find?_range_eq_some.mp known
    have high := List.mem_range.mp within
    have own : (s.table c).netId = netId := by
      by_contra other
      have mac : (s.table c).macId = macId := by simpa [other] using hit
      obtain ⟨b, less, own⟩ := apart c high mac other
      have earlier := first b less
      simp [own] at earlier
    exact Or.inl ⟨c, high, rfl, own, c, high, own⟩

theorem Holds.number (holds : s.Holds l) (valid : netId.Valid) (high : c < s.size) (own : (s.table c).netId = netId) :
    l.number netId = (s.table c).reqNum := by
  subst own
  refine RecentIds.number_of_mem (holds.mem_iff.mpr ⟨c, high, view_eq_some.mpr ⟨valid, rfl⟩⟩) fun x member same => ?_
  obtain ⟨b, high', here⟩ := holds.mem_iff.mp member
  obtain ⟨valid', rfl⟩ := view_eq_some.mp here
  rw [holds.distinct b high' c high same valid']

theorem Holds.get (holds : s.Holds l) (valid : netId.Valid) (apart : s.Apart netId netId) : s.getReqNum netId = l.number netId := by
  rcases holds.found valid apart with ⟨c, high, known, own, _⟩ | ⟨missed, _, absent⟩
  · rw [holds.number valid high own, getReqNum, known]
  · rw [RecentIds.number_of_notMem absent, getReqNum, missed]

theorem Holds.create (holds : s.Holds l) (valid : netId.Valid) (new : ∀ c < s.size, (s.table c).netId ≠ netId) :
    (s.create netId macId reqNum).Holds (l.create s.size netId reqNum) := by
  obtain ⟨slots, length, laid, views⟩ := holds.ring
  have fits := holds.fits
  have ptr := holds.ptr
  obtain ⟨x, rest, rfl⟩ := List.exists_cons_of_length_pos (length ▸ (Nat.zero_le _).trans_lt ptr)
  have written := (Ring.Laid.write_head (l := []) laid (s.newEntry netId macId reqNum)).rotate length
  rw [List.length_nil, Nat.add_zero, Nat.mod_eq_of_lt ptr] at written
  refine ⟨Nat.mod_lt _ (by omega), ?_, ⟨_, ?_, written.congr (Nat.mod_mod _ _).symm, ?_⟩, ?_⟩
  · rw [RecentIds.create, List.length_drop, List.length_append, List.length_singleton]
    show _ ≤ s.size
    omega
  · rw [List.length_append, List.length_singleton]
    exact length
  · rw [List.map_append, List.map_singleton, view_eq_some.mpr ⟨valid, rfl⟩, RecentIds.create]
    show _ = List.replicate (s.size - _) _ ++ _
    rcases Nat.lt_or_ge l.length s.size with less | more
    · obtain ⟨n, blank⟩ : ∃ n, s.size - l.length = n + 1 := ⟨s.size - l.length - 1, by omega⟩
      rw [blank, List.replicate_succ, List.map_cons, List.cons_append] at views
      rw [(List.cons.inj views).2, show l.length + 1 - s.size = 0 by omega, List.drop_zero, List.length_append, List.length_singleton,
        show s.size - (l.length + 1) = n by omega, List.map_append, List.append_assoc]
      rfl
    · obtain ⟨y, l, rfl⟩ := List.exists_cons_of_length_pos ((Nat.zero_le _).trans_lt (ptr.trans_le more))
      rw [show s.size - (y :: l).length = 0 by omega, List.replicate_zero, List.nil_append, List.map_cons, List.map_cons] at views
      rw [(List.cons.inj views).2, show (y :: l).length + 1 - s.size = 1 by omega, List.cons_append, List.drop_one, List.tail_cons,
        List.length_append, List.length_singleton, show s.size - (l.length + 1) = 0 by rw [List.length_cons] at fits more; omega,
        List.replicate_zero, List.nil_append, List.map_append]
      rfl
  · intro b low c high same valid'
    simp only [RequestTable.create, Function.update_apply] at same valid' ⊢
    split_ifs at same valid' with first second second
    · rw [first, second]
    · exact absurd same.symm (new c high)
    · exact absurd same (new b low)
    · exact holds.distinct b low c high same valid'

theorem Holds.renew (holds : s.Holds l) (valid : netId.Valid) (high : c < s.size) (own : (s.table c).netId = netId) :
    Holds { s with table := Function.update s.table c (renewed macId reqNum (s.table c)) } (l.assign netId reqNum) := by
  subst own
  have every : ∀ b < s.size, Function.update s.table c (renewed macId reqNum (s.table c)) b =
      if (s.table b).netId = (s.table c).netId then renewed macId reqNum (s.table b) else s.table b := by
    intro b low
    by_cases same : b = c
    · rw [same, Function.update_self, if_pos rfl]
    · rw [Function.update_of_ne same, if_neg fun equal => same (holds.distinct b low c high equal (equal ▸ valid))]
  have kept (b : ℕ) : (Function.update s.table c (renewed macId reqNum (s.table c)) b).netId = (s.table b).netId := by
    rw [Function.update_apply]
    split_ifs with same
    · rw [same]
      rfl
    · rfl
  obtain ⟨slots, length, laid, views⟩ := holds.ring
  refine ⟨holds.ptr, by rw [RecentIds.assign, List.length_map]; exact holds.fits, ⟨_, ?_, laid.map (g := fun e => if e.netId = (s.table c).netId then renewed macId reqNum e else e) every, ?_⟩, ?_⟩
  · rw [List.length_map, length]
  · have seen : (view ∘ fun e => if e.netId = (s.table c).netId then renewed macId reqNum e else e) =
        (Option.map fun x => if x.1 = (s.table c).netId then ((s.table c).netId, reqNum) else x) ∘ view := by
      funext e
      rw [Function.comp_apply, Function.comp_apply]
      split_ifs with same
      · rw [view_eq_some.mpr ⟨show e.netId.Valid from same ▸ valid, rfl⟩, Option.map_some, if_pos same, ← same]
        exact view_eq_some.mpr ⟨same ▸ valid, rfl⟩
      · unfold view
        split_ifs with valid'
        · rw [Option.map_some, if_neg same]
        · rfl
    rw [List.map_map, seen, ← List.map_map, views, List.map_append, List.map_replicate, List.map_map, RecentIds.assign, List.length_map,
      List.map_map]
    rfl
  · intro b low d high' same valid'
    exact holds.distinct b low d high' ((kept b).symm.trans (same.trans (kept d))) (kept b ▸ valid')

theorem Holds.getEntry (holds : s.Holds l) (valid : netId.Valid) (apart : s.Apart netId netId) :
    (s.getEntry netId).1.Holds (if netId ∈ l.map Prod.fst then l else l.create s.size netId 0) ∧ (s.getEntry netId).1.size = s.size := by
  rcases holds.found valid apart with ⟨c, high, known, own, present⟩ | ⟨missed, new, absent⟩
  · rw [RequestTable.getEntry, known, if_pos present]
    exact ⟨holds, rfl⟩
  · rw [RequestTable.getEntry, missed, if_neg absent]
    exact ⟨holds.create valid new, rfl⟩

theorem Holds.insert (holds : s.Holds l) (valid : netId.Valid) (apart : s.Apart netId macId) :
    (s.insert netId macId reqNum).Holds (l.put s.size netId reqNum) ∧ (s.insert netId macId reqNum).size = s.size := by
  rcases holds.found valid apart with ⟨c, high, known, own, present⟩ | ⟨missed, new, absent⟩
  · rw [RequestTable.insert, known, RecentIds.put, if_pos present]
    exact ⟨holds.renew valid high own, rfl⟩
  · rw [RequestTable.insert, missed, RecentIds.put, if_neg absent]
    exact ⟨holds.create valid new, rfl⟩

/-- What an unmixed call does is what the map does. -/
theorem Holds.step (holds : s.Holds l) (valid : call.Valid) (unmixed : s.Unmixed call) : ∃ t m answer,
    component.step s call = some (t, answer) ∧ (RecentIds.component s.size).step l call = some (m, answer) ∧ t.Holds m ∧ t.size = s.size := by
  cases call with
  | get id => exact ⟨s, l, _, rfl, by rw [holds.get valid unmixed]; rfl, holds, rfl⟩
  | getEntry id => exact ⟨_, _, none, rfl, rfl, holds.getEntry valid unmixed⟩
  | insertNet netId reqNum => exact ⟨_, _, none, rfl, rfl, holds.insert valid unmixed⟩
  | insert netId macId reqNum => exact ⟨_, _, none, rfl, rfl, holds.insert valid.1 unmixed⟩

theorem create_other (other : ((s.create netId macId reqNum).table c).netId ≠ netId) : (s.create netId macId reqNum).table c = s.table c := by
  refine Function.update_of_ne (fun same => other ?_) _ _
  show (Function.update s.table s.ptr (s.newEntry netId macId reqNum) c).netId = _
  rw [same, Function.update_self]
  rfl

theorem Holds.insert_other (holds : s.Holds l) (valid : netId.Valid) (apart : s.Apart netId macId)
    (other : ((s.insert netId macId reqNum).table c).netId ≠ netId) : (s.insert netId macId reqNum).table c = s.table c := by
  rcases holds.found valid apart with ⟨b, high, known, own, _⟩ | ⟨missed, _⟩
  · rw [RequestTable.insert, known] at other ⊢
    refine Function.update_of_ne (fun same => other ?_) _ _
    show (Function.update s.table b (renewed macId reqNum (s.table b)) c).netId = _
    rw [same, Function.update_self]
    exact own
  · rw [RequestTable.insert, missed] at other ⊢
    exact create_other other

/-- The entries of the other ids that are still there are what they were. -/
theorem Holds.step_other {t : RequestTable} {answer : Option ℤ} (holds : s.Holds l) (valid : call.Valid) (unmixed : s.Unmixed call)
    (taken : component.step s call = some (t, answer)) (other : (t.table c).netId ≠ call.netId) : t.table c = s.table c := by
  cases call with
  | get id =>
    cases taken
    rfl
  | getEntry id =>
    cases taken
    rcases holds.found valid unmixed with ⟨b, _, known, _⟩ | ⟨missed, _⟩
    · rw [RequestTable.getEntry, show s.find id id = some b from known]
    · rw [RequestTable.getEntry, show s.find id id = none from missed] at other ⊢
      exact create_other other
  | insertNet netId reqNum =>
    cases taken
    exact holds.insert_other valid unmixed other
  | insert netId macId reqNum =>
    cases taken
    exact holds.insert_other valid.1 unmixed other

/-- The call does not change what `get` returns for another id that is still in the table. -/
def Untouched (s : RequestTable) (call : RequestCall) : Prop :=
  ∀ next answer, component.step s call = some (next, answer) → ∀ id, id.Valid → id ≠ call.netId →
    (∃ c < next.size, (next.table c).netId = id) → s.Unmixed (.get id) → next.Unmixed (.get id) → next.getReqNum id = s.getReqNum id

theorem Holds.untouched (holds : s.Holds l) (valid : call.Valid) (unmixed : s.Unmixed call) : s.Untouched call := by
  rintro next answer taken id valid' other ⟨c, high, own⟩ before after
  obtain ⟨t, m, answer', taken', _, holds', size⟩ := holds.step valid unmixed
  cases taken.symm.trans taken'
  have same := holds.step_other valid unmixed taken (own ▸ other)
  rw [holds'.get valid' after, holds.get valid' before, holds'.number valid' high own,
    holds.number valid' (size ▸ high) (same ▸ own), same]

theorem holds_constructed {size : ℕ} (positive : 0 < size) (rtRqPeriod : ℚ) (memory : ℕ → RequestEntry) :
    (constructed size rtRqPeriod memory).Holds [] := by
  refine ⟨positive, Nat.zero_le _, ⟨(List.range size).map (constructed size rtRqPeriod memory).table, ?_, ⟨?_, fun i inside => ?_⟩, ?_⟩, ?_⟩
  · rw [List.length_map, List.length_range]
    rfl
  · rw [List.length_map, List.length_range]
    exact le_rfl
  · rw [List.length_map, List.length_range] at inside
    rw [List.getElem_map, List.getElem_range]
    show (constructed size rtRqPeriod memory).table ((0 + i) % size) = _
    rw [Nat.zero_add, Nat.mod_eq_of_lt inside]
  · have unused (c : ℕ) : view ((constructed size rtRqPeriod memory).table c) = none := if_neg fun valid => valid rfl
    rw [List.map_map, show view ∘ _ = fun _ => none from funext unused, List.map_const', List.length_range]
    exact (List.append_nil _).symm
  · exact fun b _ c _ _ valid => absurd rfl valid

/-- When no call is led to the entry of another id by its MAC id, the table is the map of the `size` ids that have come in last, and what
is done to one id leaves the others alone. -/
theorem table_refines {size : ℕ} (positive : 0 < size) (rtRqPeriod : ℚ) (memory : ℕ → RequestEntry) {calls : List RequestCall}
    (valid : ∀ call ∈ calls, call.Valid) (unmixed : component.Along Unmixed (constructed size rtRqPeriod memory) calls) :
    (∃ last held answers, component.run (constructed size rtRqPeriod memory) calls = some (last, answers) ∧
      (RecentIds.component size).run [] calls = some (held, answers)) ∧
    component.Along Untouched (constructed size rtRqPeriod memory) calls := by
  have admitted := (Machine.along_of_forall valid).and unmixed
  have start := holds_constructed positive rtRqPeriod memory
  constructor
  · have simulates (s : RequestTable) (l : RecentIds) (call : RequestCall) (related : s.Holds l ∧ s.size = size)
        (met : call.Valid ∧ s.Unmixed call) (_ : True) : ∃ t m answer, component.step s call = some (t, answer) ∧
          (RecentIds.component size).step l call = some (m, answer) ∧ t.Holds m ∧ t.size = size := by
      obtain ⟨holds, rfl⟩ := related
      exact holds.step met.1 met.2
    obtain ⟨last, held, answers, run, spec, _⟩ := Machine.run_simulation simulates ⟨start, rfl⟩ admitted (Machine.along_trivial _ _ _)
    exact ⟨last, held, answers, run, spec⟩
  · refine Machine.along_of_kept (I := fun s => ∃ l, s.Holds l) (fun s call next answer held met taken => ?_)
      (fun s call held met => ?_) ⟨[], start⟩ admitted
    · obtain ⟨l, holds⟩ := held
      obtain ⟨t, m, answer', taken', _, after, _⟩ := holds.step met.1 met.2
      cases taken.symm.trans taken'
      exact ⟨m, after⟩
    · obtain ⟨l, holds⟩ := held
      exact holds.untouched met.1 met.2

/-- An entry as it may be in the memory. -/
def sampleEntry : RequestEntry := ⟨invalidAddr, invalidAddr, 0, 0, 0, 0⟩

/-- The address of a node. -/
def node (addr : ℕ) : DsrId := ⟨addr, .ip⟩

/-- As `DSRAgent` uses the table, here with room for two ids: the third one displaces the first. -/
theorem table_refines_sample :
    let calls : List RequestCall := [.insert (node 1) (node 1) 5, .getEntry (node 2), .get (node 1), .insert (node 3) (node 3) 7, .get (node 1),
      .get (node 2), .get (node 3)]
    let s := constructed 2 (1 / 2) fun _ => sampleEntry
    (component.run s calls).map Prod.snd = some [none, none, some 5, none, some 0, some 0, some 7] ∧
      (∃ last held answers, component.run s calls = some (last, answers) ∧ (RecentIds.component 2).run [] calls = some (held, answers)) ∧
      component.Along Untouched s calls :=
  ⟨by decide +kernel, table_refines (by decide) (1 / 2) (fun _ => sampleEntry) (by decide +kernel) (by decide +kernel)⟩

/-- The second insertion goes to the entry of the first, for both have the invalid MAC id. -/
theorem invalid_shared :
    let calls : List RequestCall := [.insertNet (node 1) 5, .insertNet (node 2) 7, .get (node 1), .get (node 2)]
    let s := constructed 3 (1 / 2) fun _ => { sampleEntry with macId := ⟨0, .none⟩ }
    (component.run s calls).map Prod.snd = some [none, none, some 7, some 0] ∧
      ((RecentIds.component 3).run [] calls).map Prod.snd = some [none, none, some 5, some 7] := by
  decide +kernel

end RequestTable

end Ns2
