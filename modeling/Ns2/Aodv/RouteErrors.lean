import Ns2.Aodv.Assertions
import Mathlib.Data.List.Dedup

namespace Ns2

/-- The header of a route error with its arrays; `stray` are the places behind them that have been written.
What such a write hits is not followed. -/
structure HdrAodvError where
  destCount : ℕ
  unreachableDst : ℕ → ℕ
  unreachableDstSeqno : ℕ → ℕ
  stray : List ℕ

/-- `AODV_MAX_ERRORS`. -/
def aodvMaxErrors : ℕ := 100

namespace HdrAodvError

/-- An empty list, in arrays that hold anything. -/
def make (dsts seqnos : ℕ → ℕ) : HdrAodvError := ⟨0, dsts, seqnos, []⟩

/-- One more destination at `DestCount`. -/
def record (re : HdrAodvError) (lost : ℕ × ℕ) : HdrAodvError where
  destCount := (re.destCount + 1) % 2 ^ 8
  unreachableDst := Function.update re.unreachableDst re.destCount lost.1
  unreachableDstSeqno := Function.update re.unreachableDstSeqno re.destCount lost.2
  stray := if re.destCount < aodvMaxErrors then re.stray else re.destCount :: re.stray

/-- The destinations that a receiver reads. -/
def listed (re : HdrAodvError) : List (ℕ × ℕ) := (List.range re.destCount).map fun i => (re.unreachableDst i, re.unreachableDstSeqno i)

variable {re : HdrAodvError} {l : List (ℕ × ℕ)}

theorem record_listed (lost : ℕ × ℕ) (room : re.destCount < aodvMaxErrors) (inside : re.stray = []) :
    (re.record lost).destCount = re.destCount + 1 ∧ (re.record lost).listed = re.listed ++ [lost] ∧ (re.record lost).stray = [] := by
  have counted : (re.record lost).destCount = re.destCount + 1 := Nat.mod_eq_of_lt (by unfold aodvMaxErrors at room; omega)
  refine ⟨counted, ?_, (if_pos room).trans inside⟩
  unfold listed
  rw [counted, List.range_succ, List.map_append, List.map_singleton]
  refine congrArg₂ (· ++ ·) (List.map_congr_left fun i member => ?_) (by simp only [record, Function.update_self])
  have other := Nat.ne_of_lt (List.mem_range.mp member)
  simp only [record, Function.update_of_ne other]

theorem foldl_record (room : re.destCount + l.length ≤ aodvMaxErrors) (inside : re.stray = []) :
    (l.foldl record re).destCount = re.destCount + l.length ∧ (l.foldl record re).listed = re.listed ++ l ∧ (l.foldl record re).stray = [] := by
  induction l generalizing re with
  | nil => exact ⟨rfl, (List.append_nil _).symm, inside⟩
  | cons lost l ih =>
    rw [List.length_cons] at room
    obtain ⟨counted, listed, inside⟩ := record_listed lost (by omega) inside
    obtain ⟨counted', listed', inside'⟩ := ih (show (re.record lost).destCount + l.length ≤ aodvMaxErrors by omega) inside
    rw [List.foldl_cons, counted', counted, listed', listed, List.length_cons, List.append_assoc, List.singleton_append]
    exact ⟨by omega, rfl, inside'⟩

theorem foldl_record_stray (outside : re.stray ≠ []) : (l.foldl record re).stray ≠ [] := by
  induction l generalizing re with
  | nil => exact outside
  | cons lost l ih =>
    refine ih ?_
    unfold record
    dsimp only
    split
    · exact outside
    · exact List.cons_ne_nil _ _

/-- A list that does not fit writes behind the arrays. -/
theorem foldl_record_over (counted : re.destCount ≤ aodvMaxErrors) (many : aodvMaxErrors < re.destCount + l.length) (inside : re.stray = []) :
    (l.foldl record re).stray ≠ [] := by
  induction l generalizing re with
  | nil =>
    rw [List.length_nil] at many
    omega
  | cons lost l ih =>
    rw [List.length_cons] at many
    by_cases room : re.destCount < aodvMaxErrors
    · obtain ⟨counted', _, inside'⟩ := record_listed lost room inside
      exact ih (by omega) (by omega) inside'
    · rw [List.foldl_cons]
      refine foldl_record_stray ?_
      show (if re.destCount < aodvMaxErrors then re.stray else re.destCount :: re.stray) ≠ []
      rw [if_neg room]
      exact List.cons_ne_nil _ _

/-- What has been put into a new header. -/
theorem foldl_make (dsts seqnos : ℕ → ℕ) (few : l.length ≤ aodvMaxErrors) : (l.foldl record (make dsts seqnos)).destCount = l.length ∧
    (l.foldl record (make dsts seqnos)).listed = l ∧ (l.foldl record (make dsts seqnos)).stray = [] := by
  obtain ⟨counted, filled⟩ : (l.foldl record (make dsts seqnos)).destCount = 0 + l.length ∧ _ :=
    foldl_record (show 0 + l.length ≤ aodvMaxErrors by omega) rfl
  exact ⟨counted.trans (Nat.zero_add _), filled⟩

theorem foldl_make_stray_iff (dsts seqnos : ℕ → ℕ) : (l.foldl record (make dsts seqnos)).stray = [] ↔ l.length ≤ aodvMaxErrors := by
  refine ⟨fun inside => ?_, fun few => (foldl_make dsts seqnos few).2.2⟩
  by_contra many
  exact foldl_record_over (Nat.zero_le _) (show aodvMaxErrors < 0 + l.length by omega) rfl inside

end HdrAodvError

open AODV

namespace AODV

open HdrAodvError AodvDiscipline

/-- The turn of `handle_link_failure` for one entry. -/
def linkFailureEntry (id : ℕ) (rt : AodvRtEntry) (re : HdrAodvError) : Option (AodvRtEntry × HdrAodvError) :=
  if usesLink id rt then
    asserting (rt.flags = .up) <| asserting (rt.seqno % 2 = 0) <|
      some (rt.raise.rtDown.pcDelete id, re.record (rt.dst, rt.raise.seqno))
  else some (rt.pcDelete id, re)

def linkFailureEntries (id : ℕ) : List AodvRtEntry → HdrAodvError → Option (List AodvRtEntry × HdrAodvError)
  | [], re => some ([], re)
  | rt :: rest, re => do
    let first ← linkFailureEntry id rt re
    let others ← linkFailureEntries id rest first.2
    return (first.1 :: others.1, others.2)

/-- `handle_link_failure` with the header that it fills, and that it sends unless it is empty. -/
def linkFailure (a : AODV) (id : ℕ) (re : HdrAodvError) : Option (AODV × Option HdrAodvError) :=
  (linkFailureEntries id a.rtable re).map fun result =>
    ({ a with rtable := result.1 }, if result.2.destCount > 0 then some result.2 else none)

/-- The loop of `recvError` from the destination at `i` on. -/
def routeErrorFrom (saddr : ℕ) (re : HdrAodvError) : ℕ → ℕ → AODV → HdrAodvError → Option (AODV × HdrAodvError)
  | 0, _, a, nre => some (a, nre)
  | n + 1, i, a, nre => do
    let first ← a.errorEntry saddr (re.unreachableDst i) (re.unreachableDstSeqno i)
    routeErrorFrom saddr re n (i + 1) first.1 (first.2.foldl record nre)

/-- `recvError` with the header that it reads and the one that it fills, and that it sends unless it is empty. -/
def routeError (a : AODV) (saddr : ℕ) (re nre : HdrAodvError) : Option (AODV × Option HdrAodvError) :=
  (routeErrorFrom saddr re re.destCount 0 a nre).map fun result => (result.1, if result.2.destCount > 0 then some result.2 else none)

/-- The entry is up and goes over the link. -/
def upOver (id : ℕ) (rt : AodvRtEntry) : Prop := rt.flags = .up ∧ rt.nexthop = id

instance (id : ℕ) (rt : AodvRtEntry) : Decidable (upOver id rt) := inferInstanceAs (Decidable (_ ∧ _))

/-- The entries over the link that are up, and no others, are taken down, and the route error lists them. -/
structure LinkFailureRight (a : AODV) (id : ℕ) (b : AODV) (sent : Option HdrAodvError) : Prop where
  table : b = { a with rtable := a.rtable.map fun rt => (if upOver id rt then rt.raise.rtDown else rt).pcDelete id }
  listed : (sent.map HdrAodvError.listed).getD [] = (a.rtable.filter fun rt => upOver id rt).map fun rt => (rt.dst, rt.raise.seqno)
  inside : ∀ re ∈ sent, re.stray = []

/-- The entries over the link have a hop count exactly if they are up, and even numbers then, and they are not too many. -/
structure LinkFailureFits (a : AODV) (id : ℕ) : Prop where
  valid : ∀ rt ∈ a.rtable, rt.nexthop = id → (rt.hops ≠ aodvInfinity ↔ rt.flags = .up) ∧ (rt.flags = .up → rt.seqno % 2 = 0)
  few : (a.rtable.filter fun rt => upOver id rt).length ≤ aodvMaxErrors

variable {a b c : AODV} {id saddr : ℕ} {re nre : HdrAodvError} {l report : List (ℕ × ℕ)} {entries : List AodvRtEntry} {rt : AodvRtEntry}

theorem linkFailureEntry_eq : linkFailureEntry id rt re = asserting (usesLink id rt → rt.flags = .up ∧ rt.seqno % 2 = 0)
    (some (afterFailure id rt, if usesLink id rt then re.record (rt.dst, rt.raise.seqno) else re)) := by
  unfold linkFailureEntry afterFailure asserting
  by_cases uses : usesLink id rt
  · simp only [uses, true_imp_iff, if_true]
    split <;> split <;> simp_all
  · simp only [uses, false_imp_iff, if_true, if_false]

theorem linkFailureEntries_eq : linkFailureEntries id entries re =
    asserting (∀ rt ∈ entries, usesLink id rt → rt.flags = .up ∧ rt.seqno % 2 = 0)
      (some (entries.map (afterFailure id), ((entries.filter fun rt => usesLink id rt).map fun rt => (rt.dst, rt.raise.seqno)).foldl record re)) := by
  induction entries generalizing re with
  | nil => exact (if_pos fun _ none => absurd none List.not_mem_nil).symm
  | cons rt rest ih =>
    rw [linkFailureEntries, linkFailureEntry_eq]
    by_cases valid : usesLink id rt → rt.flags = .up ∧ rt.seqno % 2 = 0
    · rw [asserting, if_pos valid, Option.bind_eq_bind, Option.bind_some, ih]
      unfold asserting
      by_cases others : ∀ rt ∈ rest, usesLink id rt → rt.flags = .up ∧ rt.seqno % 2 = 0
      · rw [if_pos others, if_pos (List.forall_mem_cons.mpr ⟨valid, others⟩)]
        by_cases uses : usesLink id rt
        · have kept : (rt :: rest).filter (fun rt => usesLink id rt) = rt :: _ := List.filter_cons_of_pos (decide_eq_true uses)
          rw [kept, if_pos uses]
          rfl
        · have kept : (rt :: rest).filter (fun rt => usesLink id rt) = _ := List.filter_cons_of_neg (by simpa using uses)
          rw [kept, if_neg uses]
          rfl
      · rw [if_neg others, if_neg fun all => others (List.forall_mem_cons.mp all).2]
        rfl
    · unfold asserting
      rw [if_neg valid, if_neg fun all => valid (List.forall_mem_cons.mp all).1]
      rfl

theorem linkFailure_iff {sent : Option HdrAodvError} : a.linkFailure id re = some (b, sent) ↔
    (∀ rt ∈ a.rtable, usesLink id rt → rt.flags = .up ∧ rt.seqno % 2 = 0) ∧ b = { a with rtable := a.rtable.map (afterFailure id) } ∧
      ∃ full, full = ((a.rtable.filter fun rt => usesLink id rt).map fun rt => (rt.dst, rt.raise.seqno)).foldl record re ∧
        sent = if full.destCount > 0 then some full else none := by
  unfold linkFailure
  rw [linkFailureEntries_eq]
  unfold asserting
  split
  · rename_i valid
    rw [Option.map_some, Option.some.injEq, Prod.mk.injEq]
    constructor
    · rintro ⟨rfl, rfl⟩
      exact ⟨valid, rfl, _, rfl, rfl⟩
    · rintro ⟨_, rfl, _, rfl, rfl⟩
      exact ⟨rfl, rfl⟩
  · rename_i fails
    rw [Option.map_none]
    exact iff_of_false (Option.some_ne_none _).symm fun done => fails done.1

/-- The entries that the code takes down are the right ones. -/
theorem uses_iff_of_valid (valid : ∀ rt ∈ a.rtable, rt.nexthop = id → (rt.hops ≠ aodvInfinity ↔ rt.flags = .up)) (member : rt ∈ a.rtable) :
    usesLink id rt ↔ upOver id rt :=
  ⟨fun uses => ⟨(valid rt member uses.2).mp uses.1, uses.2⟩, fun across => ⟨(valid rt member across.2).mpr across.1, across.2⟩⟩

theorem afterFailure_eq_of_iff (same : usesLink id rt ↔ upOver id rt) :
    afterFailure id rt = (if upOver id rt then rt.raise.rtDown else rt).pcDelete id := by
  unfold afterFailure
  simp only [same]

/-- An entry that is up and not taken for one that uses the link stays up. -/
theorem uses_of_taken_down (taken : afterFailure id rt = (if upOver id rt then rt.raise.rtDown else rt).pcDelete id) (across : upOver id rt) :
    usesLink id rt := by
  by_contra unused
  unfold afterFailure at taken
  rw [if_neg unused, if_pos across] at taken
  have flags : (rt.pcDelete id).flags = (rt.raise.rtDown.pcDelete id).flags := congrArg AodvRtEntry.flags taken
  dsimp only [AodvRtEntry.pcDelete] at flags
  rw [across.1] at flags
  unfold AodvRtEntry.rtDown at flags
  split at flags
  · rename_i down
    rw [show rt.raise.flags = rt.flags from rfl, across.1] at down
    cases down
  · cases flags

theorem linkFailure_right_iff (a : AODV) (id : ℕ) (dsts seqnos : ℕ → ℕ) :
    (∃ b sent, a.linkFailure id (.make dsts seqnos) = some (b, sent) ∧ LinkFailureRight a id b sent) ↔ LinkFailureFits a id := by
  constructor
  · rintro ⟨b, sent, done, right⟩
    obtain ⟨asserted, rfl, full, filled, rfl⟩ := linkFailure_iff.mp done
    have table : a.rtable.map (afterFailure id) = _ := congrArg AODV.rtable right.table
    have taken : ∀ rt ∈ a.rtable, upOver id rt → usesLink id rt := fun rt member => uses_of_taken_down (List.map_inj_left.mp table rt member)
    have valid : ∀ rt ∈ a.rtable, rt.nexthop = id → (rt.hops ≠ aodvInfinity ↔ rt.flags = .up) := fun rt member via =>
      ⟨fun finite => (asserted rt member ⟨finite, via⟩).1, fun up => (taken rt member ⟨up, via⟩).1⟩
    refine ⟨fun rt member via => ⟨valid rt member via, fun up => (asserted rt member (taken rt member ⟨up, via⟩)).2⟩, ?_⟩
    have same : (a.rtable.filter fun rt => usesLink id rt) = a.rtable.filter fun rt => upOver id rt :=
      List.filter_congr fun rt member => decide_eq_decide.mpr (uses_iff_of_valid valid member)
    rw [same] at filled
    by_cases some : full.destCount > 0
    · have inside := right.inside full (by rw [if_pos some]; rfl)
      rw [filled, foldl_make_stray_iff, List.length_map] at inside
      exact inside
    · have listed := right.listed
      rw [if_neg some] at listed
      have none' := congrArg List.length listed
      rw [List.length_map] at none'
      exact none'.symm.trans_le (Nat.zero_le _)
  · rintro ⟨valid, few⟩
    have uses : ∀ rt ∈ a.rtable, usesLink id rt ↔ upOver id rt := fun rt member =>
      uses_iff_of_valid (fun rt member via => (valid rt member via).1) member
    have same : (a.rtable.filter fun rt => usesLink id rt) = a.rtable.filter fun rt => upOver id rt :=
      List.filter_congr fun rt member => decide_eq_decide.mpr (uses rt member)
    have fits : ((a.rtable.filter fun rt => upOver id rt).map fun rt => (rt.dst, rt.raise.seqno)).length ≤ aodvMaxErrors := by
      rwa [List.length_map]
    obtain ⟨counted, listed, inside⟩ := foldl_make dsts seqnos fits
    refine ⟨_, _, linkFailure_iff.mpr ⟨fun rt member used => ?_, rfl, _, by rw [same], rfl⟩, ?_, ?_, ?_⟩
    · have across := (uses rt member).mp used
      exact ⟨across.1, (valid rt member across.2).2 across.1⟩
    · exact congrArg (fun table => { a with rtable := table })
        (List.map_congr_left fun rt member => afterFailure_eq_of_iff (uses rt member))
    · split
      · exact listed
      · rename_i none'
        rw [counted] at none'
        exact (List.eq_nil_of_length_eq_zero (by omega)).symm
    · intro re member
      split at member
      · cases member
        exact inside
      · cases member

/-- The number with which the route errors of a list take an entry down. -/
def fallen (saddr : ℕ) (l : List (ℕ × ℕ)) (rt : AodvRtEntry) : Option ℕ :=
  (l.find? fun lost => lost.1 = rt.dst ∧ losesRoute saddr lost.2 rt).map Prod.snd

/-- The entry with that number, taken down. -/
def fell (saddr : ℕ) (l : List (ℕ × ℕ)) (rt : AodvRtEntry) : AodvRtEntry :=
  match fallen saddr l rt with
  | some seqno => { { rt with seqno := seqno }.rtDown with pclist := [] }
  | none => rt

/-- What the loop of `recvError` leaves of the entries, and reports. -/
structure ErrorSpec (a : AODV) (saddr : ℕ) (l : List (ℕ × ℕ)) (b : AODV) (report : List (ℕ × ℕ)) : Prop where
  table : ∀ d, b.rtLookup d = (a.rtLookup d).map (fell saddr l)
  listed : ∀ d seqno, (d, seqno) ∈ report ↔ ∃ rt, a.rtLookup d = some rt ∧ rt.pclist ≠ [] ∧ fallen saddr l rt = some seqno
  once : (report.map Prod.fst).Nodup

/-- A route error from the neighbor asserts that an entry which it takes down is up. -/
def ErrorValid (a : AODV) (saddr : ℕ) (l : List (ℕ × ℕ)) : Prop :=
  ∀ lost ∈ l, ∀ rt, a.rtLookup lost.1 = some rt → losesRoute saddr lost.2 rt → rt.flags = .up ∧ rt.seqno % 2 = 0

theorem fallen_cons (lost : ℕ × ℕ) : fallen saddr (lost :: l) rt =
    if lost.1 = rt.dst ∧ losesRoute saddr lost.2 rt then some lost.2 else fallen saddr l rt := by
  unfold fallen
  rw [List.find?_cons]
  by_cases here : lost.1 = rt.dst ∧ losesRoute saddr lost.2 rt
  · rw [decide_eq_true here, if_pos here]
    rfl
  · rw [decide_eq_false here, if_neg here]

theorem fallen_of_infinite (lost : rt.hops = aodvInfinity) : fallen saddr l rt = none := by
  unfold fallen
  rw [List.find?_eq_none.mpr, Option.map_none]
  intro x _ holds
  exact (of_decide_eq_true holds).2.1 lost

theorem fell_of_none (stays : fallen saddr l rt = none) : fell saddr l rt = rt := by
  unfold fell
  rw [stays]

/-- An entry that is up, once it has been taken down with its precursors cleared. -/
theorem fell_of_some {seqno : ℕ} (falls : fallen saddr l rt = some seqno) (up : rt.flags = .up) :
    (fell saddr l rt).hops = aodvInfinity ∧ (fell saddr l rt).pclist = [] ∧ (fell saddr l rt).flags = .down ∧ (fell saddr l rt).seqno = seqno := by
  unfold fell
  rw [falls]
  dsimp only
  unfold AodvRtEntry.rtDown
  rw [if_neg (by rw [show ({ rt with seqno := seqno } : AodvRtEntry).flags = rt.flags from rfl, up]; decide)]
  exact ⟨rfl, rfl, rfl, rfl⟩

theorem fell_dst : (fell saddr l rt).dst = rt.dst := by
  unfold fell
  cases fallen saddr l rt with
  | none => rfl
  | some seqno => exact rtDown_dst { rt with seqno := seqno }

theorem fallen_hit {seqno : ℕ} (falls : fallen saddr l rt = some seqno) :
    ∃ lost ∈ l, lost.1 = rt.dst ∧ lost.2 = seqno ∧ losesRoute saddr seqno rt := by
  obtain ⟨lost, first, rfl⟩ := Option.map_eq_some_iff.mp falls
  have holds := List.find?_some first
  obtain ⟨here, loses⟩ : lost.1 = rt.dst ∧ losesRoute saddr lost.2 rt := of_decide_eq_true holds
  exact ⟨lost, List.mem_of_find?_eq_some first, here, rfl, loses⟩

/-- An entry that a list takes down is up. -/
theorem fallen_valid {d seqno : ℕ} (valid : ErrorValid a saddr l) (found : a.rtLookup d = some rt) (falls : fallen saddr l rt = some seqno) :
    rt.flags = .up ∧ rt.seqno % 2 = 0 := by
  obtain ⟨lost, member, here, rfl, loses⟩ := fallen_hit falls
  refine valid lost member rt ?_ loses
  rw [here, rtLookup_dst found]
  exact found

theorem fell_cons (lost : ℕ × ℕ) (up : ∀ seqno, fallen saddr [lost] rt = some seqno → rt.flags = .up) :
    fell saddr l (fell saddr [lost] rt) = fell saddr (lost :: l) rt ∧ fallen saddr (lost :: l) rt =
      (fallen saddr [lost] rt).or (fallen saddr l (fell saddr [lost] rt)) := by
  have single : fallen saddr [lost] rt = if lost.1 = rt.dst ∧ losesRoute saddr lost.2 rt then some lost.2 else none := fallen_cons lost
  cases falls : fallen saddr [lost] rt with
  | none =>
    rw [falls] at single
    have stays : ¬(lost.1 = rt.dst ∧ losesRoute saddr lost.2 rt) := fun here => Option.some_ne_none _ (single.trans (if_pos here)).symm
    have same : fallen saddr (lost :: l) rt = fallen saddr l rt := by rw [fallen_cons, if_neg stays]
    rw [fell_of_none falls]
    refine ⟨?_, by rw [same, Option.none_or]⟩
    unfold fell
    rw [same]
  | some seqno =>
    rw [falls] at single
    have here : lost.1 = rt.dst ∧ losesRoute saddr lost.2 rt := by
      by_contra stays
      rw [if_neg stays] at single
      cases single
    rw [if_pos here] at single
    have same : fallen saddr (lost :: l) rt = some seqno := by rw [fallen_cons, if_pos here, single]
    have down := fell_of_some falls (up seqno falls)
    refine ⟨?_, by rw [same, Option.some_or]⟩
    rw [fell_of_none (fallen_of_infinite down.1)]
    unfold fell
    rw [same, falls]

theorem ErrorSpec.cons {lost : ℕ × ℕ} {more : List (ℕ × ℕ)} (first : ErrorSpec a saddr [lost] b report) (valid : ErrorValid a saddr [lost])
    (rest : ErrorSpec b saddr l c more) : ErrorSpec a saddr (lost :: l) c (report ++ more) := by
  have up : ∀ d rt, a.rtLookup d = some rt → ∀ seqno, fallen saddr [lost] rt = some seqno → rt.flags = .up :=
    fun d rt found seqno falls => (fallen_valid valid found falls).1
  have apart : ∀ d seqno seqno', (d, seqno) ∈ report → (d, seqno') ∉ more := by
    intro d seqno seqno' early late
    obtain ⟨rt, found, _, falls⟩ := (first.listed d seqno).mp early
    obtain ⟨rt', found', some, _⟩ := (rest.listed d seqno').mp late
    rw [first.table, found] at found'
    cases found'
    exact some (fell_of_some falls (up d rt found seqno falls)).2.1
  refine ⟨fun d => ?_, fun d seqno => ?_, ?_⟩
  · rw [rest.table, first.table, Option.map_map]
    cases found : a.rtLookup d with
    | none => rfl
    | some rt => exact congrArg some (fell_cons lost (up d rt found)).1
  · rw [List.mem_append, first.listed, rest.listed, first.table]
    constructor
    · rintro (⟨rt, found, some, falls⟩ | ⟨rt', found', some, falls⟩)
      · exact ⟨rt, found, some, by rw [(fell_cons lost (up d rt found)).2, falls, Option.some_or]⟩
      · obtain ⟨rt, found, rfl⟩ := Option.map_eq_some_iff.mp found'
        have stays : fallen saddr [lost] rt = none := by
          cases early : fallen saddr [lost] rt with
          | none => rfl
          | some s => exact absurd (fell_of_some early (up d rt found s early)).2.1 some
        refine ⟨rt, found, ?_, by rw [(fell_cons lost (up d rt found)).2, stays, Option.none_or]; exact falls⟩
        rwa [fell_of_none stays] at some
    · rintro ⟨rt, found, some, falls⟩
      rw [(fell_cons lost (up d rt found)).2] at falls
      cases early : fallen saddr [lost] rt with
      | some s =>
        rw [early, Option.some_or] at falls
        exact Or.inl ⟨rt, found, some, early.trans falls⟩
      | none =>
        rw [early, Option.none_or] at falls
        refine Or.inr ⟨fell saddr [lost] rt, by rw [found]; rfl, ?_, falls⟩
        rwa [fell_of_none early]
  · rw [List.map_append]
    refine List.nodup_append.mpr ⟨first.once, rest.once, fun d early d' late same => ?_⟩
    obtain ⟨⟨_, seqno⟩, member, rfl⟩ := List.mem_map.mp early
    obtain ⟨⟨_, seqno'⟩, member', rfl⟩ := List.mem_map.mp late
    dsimp only at same
    exact apart _ seqno seqno' member (same ▸ member')

theorem errorValid_cons {lost : ℕ × ℕ} (first : ErrorSpec a saddr [lost] b report) (valid : ErrorValid a saddr [lost]) :
    ErrorValid a saddr (lost :: l) ↔ ErrorValid b saddr l := by
  constructor
  · intro all lost' member rt' found' loses
    rw [first.table] at found'
    obtain ⟨rt, found, rfl⟩ := Option.map_eq_some_iff.mp found'
    cases early : fallen saddr [lost] rt with
    | none =>
      rw [fell_of_none early] at loses ⊢
      exact all lost' (List.mem_cons_of_mem lost member) rt found loses
    | some s => exact absurd (fell_of_some early (fallen_valid valid found early).1).1 loses.1
  · intro rest lost' member rt found loses
    cases early : fallen saddr [lost] rt with
    | none =>
      rcases List.mem_cons.mp member with rfl | later
      · exact valid lost' List.mem_cons_self rt found loses
      · refine rest lost' later rt ?_ loses
        rw [first.table, found, Option.map_some, fell_of_none early]
    | some s => exact fallen_valid valid found early

theorem ErrorSpec.idle (stays : ∀ d rt, a.rtLookup d = some rt → fallen saddr l rt = none) : ErrorSpec a saddr l a [] where
  table d := by
    cases found : a.rtLookup d with
    | none => rfl
    | some rt => exact congrArg some (fell_of_none (stays d rt found)).symm
  listed d seqno := by
    refine iff_of_false List.not_mem_nil ?_
    rintro ⟨rt, found, _, falls⟩
    rw [stays d rt found] at falls
    cases falls
  once := List.nodup_nil

theorem fallen_single {lost : ℕ × ℕ} {d : ℕ} (found : a.rtLookup lost.1 = some rt) {rt' : AodvRtEntry} (found' : a.rtLookup d = some rt') :
    fallen saddr [lost] rt' = if d = lost.1 ∧ losesRoute saddr lost.2 rt then some lost.2 else none := by
  have here := rtLookup_dst found'
  rw [fallen_cons, here]
  by_cases same : d = lost.1
  · rw [same, found] at found'
    cases found'
    rw [same]
    rfl
  · rw [if_neg fun both => same both.1.symm, if_neg fun both => same both.1]
    rfl

theorem fell_single {lost : ℕ × ℕ} (found : a.rtLookup lost.1 = some rt) (loses : losesRoute saddr lost.2 rt) :
    fell saddr [lost] rt = { { rt with seqno := lost.2 }.rtDown with pclist := [] } := by
  unfold fell
  rw [fallen_single found found, if_pos ⟨rfl, loses⟩]

theorem errorEntry_eq {lost : ℕ × ℕ} (found : a.rtLookup lost.1 = some rt) : a.errorEntry saddr lost.1 lost.2 =
    if losesRoute saddr lost.2 rt then
      asserting (rt.flags = .up) (asserting (rt.seqno % 2 = 0)
        (some (a.rtSet (fell saddr [lost] rt), if rt.pclist ≠ [] then [lost] else [])))
    else some (a, []) := by
  unfold errorEntry
  rw [found]
  dsimp only
  by_cases loses : losesRoute saddr lost.2 rt
  · rw [fell_single found loses]
    have dst : ({ rt with seqno := lost.2 }.rtDown).dst = lost.1 :=
      (rtDown_dst { rt with seqno := lost.2 }).trans (show rt.dst = lost.1 from rtLookup_dst found)
    obtain ⟨clear, number⟩ : ({ rt with seqno := lost.2 }.rtDown).pclist = rt.pclist ∧ ({ rt with seqno := lost.2 }.rtDown).seqno = lost.2 := by
      unfold AodvRtEntry.rtDown
      split <;> exact ⟨rfl, rfl⟩
    generalize { rt with seqno := lost.2 }.rtDown = down at dst clear number
    refine (if_pos loses).trans (Eq.trans ?_ (if_pos loses).symm)
    have same : (down.dst, down.seqno) = lost := Prod.ext dst number
    rw [clear, same]
    by_cases some : rt.pclist ≠ []
    · rw [if_pos some, if_pos some]
    · rw [if_neg some, if_neg some]
      have empty : { down with pclist := [] } = down := by rw [← not_not.mp some, ← clear]
      rw [empty]
  · exact (if_neg loses).trans (if_neg loses).symm

/-- The turn of the loop for one destination. -/
theorem errorEntry_spec (a : AODV) (saddr : ℕ) (lost : ℕ × ℕ) :
    (ErrorValid a saddr [lost] ∧ ∃ b report, a.errorEntry saddr lost.1 lost.2 = some (b, report) ∧ ErrorSpec a saddr [lost] b report) ∨
      (¬ErrorValid a saddr [lost] ∧ a.errorEntry saddr lost.1 lost.2 = none) := by
  cases found : a.rtLookup lost.1 with
  | none =>
    refine Or.inl ⟨fun lost' member rt found' _ => ?_, a, [], ?_, .idle fun d rt found' => ?_⟩
    · cases List.mem_singleton.mp member
      rw [found] at found'
      cases found'
    · unfold errorEntry
      rw [found]
    · rw [fallen_cons, if_neg]
      · rfl
      · rintro ⟨here, _⟩
        rw [rtLookup_dst found'] at here
        rw [here, found'] at found
        cases found
  | some rt =>
    rw [errorEntry_eq found]
    by_cases loses : losesRoute saddr lost.2 rt
    · rw [if_pos loses]
      by_cases valid : rt.flags = .up ∧ rt.seqno % 2 = 0
      · rw [asserting, if_pos valid.1, asserting, if_pos valid.2]
        refine Or.inl ⟨fun lost' member rt' found' _ => ?_, _, _, rfl, fun d => ?_, fun d seqno => ?_, ?_⟩
        · cases List.mem_singleton.mp member
          rw [found] at found'
          cases found'
          exact valid
        · rw [rtLookup_rtSet, fell_dst, rtLookup_dst found]
          by_cases here : d = lost.1
          · rw [if_pos here, here, found]
            rfl
          · rw [if_neg here]
            cases found' : a.rtLookup d with
            | none => rfl
            | some rt' =>
              have stays : fallen saddr [lost] rt' = none := by rw [fallen_single found found', if_neg fun both => here both.1]
              exact congrArg some (fell_of_none stays).symm
        · constructor
          · intro member
            split at member
            · rename_i some
              cases List.mem_singleton.mp member
              exact ⟨rt, found, some, by rw [fallen_single found found, if_pos ⟨rfl, loses⟩]⟩
            · cases member
          · rintro ⟨rt', found', some, falls⟩
            rw [fallen_single found found'] at falls
            split at falls
            · rename_i here
              rw [here.1, found] at found'
              cases found'
              rw [if_pos some, List.mem_singleton]
              exact Prod.ext here.1 (Option.some.inj falls).symm
            · cases falls
        · split
          · exact List.pairwise_singleton _ _
          · exact List.nodup_nil
      · right
        refine ⟨fun all => valid (all lost List.mem_cons_self rt found loses), ?_⟩
        unfold asserting
        split
        · rename_i up
          rw [if_neg fun even => valid ⟨up, even⟩]
        · rfl
    · rw [if_neg loses]
      refine Or.inl ⟨fun lost' member rt' found' loses' => ?_, a, [], rfl, .idle fun d rt' found' => ?_⟩
      · cases List.mem_singleton.mp member
        rw [found] at found'
        cases found'
        exact absurd loses' loses
      · rw [fallen_single found found', if_neg fun both => loses both.2]

theorem errorEntries_spec (a : AODV) (saddr : ℕ) (l : List (ℕ × ℕ)) :
    (ErrorValid a saddr l ∧ ∃ b report, a.errorEntries saddr l = some (b, report) ∧ ErrorSpec a saddr l b report) ∨
      (¬ErrorValid a saddr l ∧ a.errorEntries saddr l = none) := by
  induction l generalizing a with
  | nil => exact Or.inl ⟨fun _ none => absurd none List.not_mem_nil, a, [], rfl, .idle fun _ _ _ => rfl⟩
  | cons lost l ih =>
    rw [errorEntries]
    rcases errorEntry_spec a saddr lost with ⟨valid, b, report, done, first⟩ | ⟨fails, done⟩
    · rw [done, errorValid_cons first valid, Option.bind_eq_bind, Option.bind_some]
      rcases ih b with ⟨valid', c, more, done', rest⟩ | ⟨fails, done'⟩
      · rw [done']
        exact Or.inl ⟨valid', c, report ++ more, rfl, first.cons valid rest⟩
      · rw [done']
        exact Or.inr ⟨fails, rfl⟩
    · rw [done]
      refine Or.inr ⟨fun all => fails fun lost' member => ?_, rfl⟩
      cases List.mem_singleton.mp member
      exact all lost List.mem_cons_self

theorem routeErrorFrom_eq (n i : ℕ) : routeErrorFrom saddr re n i a nre =
    (a.errorEntries saddr ((List.range' i n).map fun i => (re.unreachableDst i, re.unreachableDstSeqno i))).map
      fun result => (result.1, result.2.foldl record nre) := by
  induction n generalizing i a nre with
  | zero => rfl
  | succ n ih =>
    rw [routeErrorFrom, List.range'_succ, List.map_cons, errorEntries]
    dsimp only
    cases a.errorEntry saddr (re.unreachableDst i) (re.unreachableDstSeqno i) with
    | none => rfl
    | some first =>
      rw [Option.bind_eq_bind, Option.bind_some, Option.bind_eq_bind, Option.bind_some, ih]
      cases first.1.errorEntries saddr _ with
      | none => rfl
      | some others =>
        rw [Option.map_some, Option.bind_some, Option.pure_def, Option.map_some, List.foldl_append]

/-- What a route error does to the routing table is what `errorEntries` says, for the destinations that it lists. -/
theorem routeError_eq : a.routeError saddr re nre = (a.errorEntries saddr re.listed).map fun result =>
    (result.1, if (result.2.foldl record nre).destCount > 0 then some (result.2.foldl record nre) else none) := by
  unfold routeError
  rw [routeErrorFrom_eq, Option.map_map, HdrAodvError.listed, List.range_eq_range']
  rfl

/-- The route error that is passed on lists the entries that have been taken down and had precursors, with their numbers, each once. -/
structure RouteErrorRight (a b : AODV) (sent : Option HdrAodvError) : Prop where
  listed : ∀ d seqno, (d, seqno) ∈ (sent.map HdrAodvError.listed).getD [] ↔ ∃ rt rt', a.rtLookup d = some rt ∧ rt.flags = .up ∧
    rt.pclist ≠ [] ∧ b.rtLookup d = some rt' ∧ rt'.flags = .down ∧ rt'.seqno = seqno
  once : (((sent.map HdrAodvError.listed).getD []).map Prod.fst).Nodup
  inside : ∀ nre ∈ sent, nre.stray = []

/-- The destinations of a route error whose entries it takes down and that have precursors. -/
def reported (a : AODV) (saddr : ℕ) (l : List (ℕ × ℕ)) : List ℕ :=
  (l.map Prod.fst).dedup.filter fun d => (a.rtLookup d).any fun rt => rt.pclist ≠ [] ∧ l.any fun lost => lost.1 = d ∧ losesRoute saddr lost.2 rt

/-- The entries that a route error takes down are up with even numbers, and those that have precursors are not too many. -/
structure RouteErrorFits (a : AODV) (saddr : ℕ) (re : HdrAodvError) : Prop where
  valid : ErrorValid a saddr re.listed
  few : (a.reported saddr re.listed).length ≤ aodvMaxErrors

theorem fallen_of_member {lost : ℕ × ℕ} (member : lost ∈ l) (here : lost.1 = rt.dst) (loses : losesRoute saddr lost.2 rt) :
    ∃ seqno, fallen saddr l rt = some seqno := by
  have hit : (l.find? fun lost => lost.1 = rt.dst ∧ losesRoute saddr lost.2 rt).isSome :=
    List.find?_isSome.mpr ⟨lost, member, decide_eq_true ⟨here, loses⟩⟩
  obtain ⟨first, found⟩ := Option.isSome_iff_exists.mp hit
  exact ⟨first.2, by unfold fallen; rw [found]; rfl⟩

/-- There are as many reports as destinations to be reported. -/
theorem ErrorSpec.reported_length (spec : ErrorSpec a saddr l b report) : report.length = (a.reported saddr l).length := by
  have same : (report.map Prod.fst).Perm (a.reported saddr l) := by
    refine (List.perm_ext_iff_of_nodup spec.once ((List.nodup_dedup _).filter _)).mpr fun d => ?_
    rw [List.mem_filter, List.mem_dedup]
    constructor
    · intro member
      obtain ⟨⟨_, seqno⟩, inside, rfl⟩ := List.mem_map.mp member
      obtain ⟨rt, found, some, falls⟩ := (spec.listed _ seqno).mp inside
      obtain ⟨lost, within, dst, rfl, loses⟩ := fallen_hit falls
      have here := dst.trans (rtLookup_dst found)
      refine ⟨List.mem_map.mpr ⟨lost, within, here⟩, ?_⟩
      rw [found, Option.any_some, decide_eq_true_eq]
      exact ⟨some, List.any_eq_true.mpr ⟨lost, within, decide_eq_true ⟨here, loses⟩⟩⟩
    · rintro ⟨_, falls⟩
      cases found : a.rtLookup d with
      | none =>
        rw [found] at falls
        cases falls
      | some rt =>
        rw [found, Option.any_some, decide_eq_true_eq] at falls
        obtain ⟨some, inside⟩ := falls
        obtain ⟨lost, within, met⟩ := List.any_eq_true.mp inside
        obtain ⟨here, loses⟩ := of_decide_eq_true met
        obtain ⟨seqno, falls⟩ := fallen_of_member within (here.trans (rtLookup_dst found).symm) loses
        exact List.mem_map_of_mem ((spec.listed d seqno).mpr ⟨rt, found, some, falls⟩)
  rw [← same.length_eq, List.length_map]

/-- An entry that was up is down exactly if it has been taken down. -/
theorem fell_down_iff {seqno : ℕ} (up : rt.flags = .up) :
    (fell saddr l rt).flags = .down ∧ (fell saddr l rt).seqno = seqno ↔ fallen saddr l rt = some seqno := by
  cases falls : fallen saddr l rt with
  | none =>
    rw [fell_of_none falls, up]
    exact iff_of_false (fun both => AodvFlags.noConfusion both.1) (Option.some_ne_none seqno).symm
  | some s =>
    obtain ⟨_, _, down, number⟩ := fell_of_some falls up
    rw [down, number, Option.some.injEq]
    exact and_iff_right rfl

theorem routeError_right_iff (a : AODV) (saddr : ℕ) (re : HdrAodvError) (dsts seqnos : ℕ → ℕ) :
    (∃ b sent, a.routeError saddr re (.make dsts seqnos) = some (b, sent) ∧ RouteErrorRight a b sent) ↔ RouteErrorFits a saddr re := by
  rw [routeError_eq]
  rcases errorEntries_spec a saddr re.listed with ⟨valid, b, report, done, spec⟩ | ⟨fails, done⟩
  · rw [done, Option.map_some]
    have fits : RouteErrorFits a saddr re ↔ report.length ≤ aodvMaxErrors := by
      rw [spec.reported_length]
      exact ⟨fun fits => fits.few, fun few => ⟨valid, few⟩⟩
    have fell_iff : ∀ d seqno, (d, seqno) ∈ report ↔ ∃ rt rt', a.rtLookup d = some rt ∧ rt.flags = .up ∧ rt.pclist ≠ [] ∧
        b.rtLookup d = some rt' ∧ rt'.flags = .down ∧ rt'.seqno = seqno := by
      intro d seqno
      rw [spec.listed, spec.table]
      constructor
      · rintro ⟨rt, found, some, falls⟩
        have up := (fallen_valid valid found falls).1
        exact ⟨rt, _, found, up, some, by rw [found]; rfl, (fell_down_iff up).mpr falls⟩
      · rintro ⟨rt, rt', found, up, some, found', down⟩
        rw [found, Option.map_some, Option.some.injEq] at found'
        subst found'
        exact ⟨rt, found, some, (fell_down_iff up).mp down⟩
    rw [fits]
    constructor
    · rintro ⟨b', sent, same, right⟩
      cases same
      have inside := right.inside
      have listed := right.listed
      dsimp only at inside listed
      by_cases some : (report.foldl record (HdrAodvError.make dsts seqnos)).destCount > 0
      · rw [if_pos some] at inside
        exact (foldl_make_stray_iff dsts seqnos).mp (inside _ rfl)
      · rw [if_neg some] at listed
        have empty : report = [] := List.eq_nil_iff_forall_not_mem.mpr fun lost member =>
          List.not_mem_nil ((listed lost.1 lost.2).mpr ((fell_iff lost.1 lost.2).mp member))
        rw [empty]
        exact Nat.zero_le _
    · intro few
      obtain ⟨counted, listed, inside⟩ := foldl_make dsts seqnos few
      have shown : ((if (report.foldl record (HdrAodvError.make dsts seqnos)).destCount > 0 then some (report.foldl record (HdrAodvError.make dsts seqnos)) else none).map
          HdrAodvError.listed).getD [] = report := by
        split
        · exact listed
        · rename_i none'
          rw [counted] at none'
          exact (List.eq_nil_of_length_eq_zero (by omega)).symm
      refine ⟨b, _, rfl, fun d seqno => ?_, ?_, fun nre member => ?_⟩
      · rw [shown]
        exact fell_iff d seqno
      · rw [shown]
        exact spec.once
      · split at member
        · cases member
          exact inside
        · cases member
  · rw [done]
    refine iff_of_false ?_ fun fits => fails fits.valid
    rintro ⟨_, _, none', _⟩
    cases none'

/-- Both route errors are right exactly if no assertion fails, no entry that is up has the hop count `INFINITY2`, and no more than
`AODV_MAX_ERRORS` destinations are to be listed. -/
theorem routeErrors_right_iff (a : AODV) (id saddr : ℕ) (re : HdrAodvError) (dsts seqnos : ℕ → ℕ) :
    ((∃ b sent, a.linkFailure id (.make dsts seqnos) = some (b, sent) ∧ LinkFailureRight a id b sent) ↔ LinkFailureFits a id) ∧
      ((∃ b sent, a.routeError saddr re (.make dsts seqnos) = some (b, sent) ∧ RouteErrorRight a b sent) ↔ RouteErrorFits a saddr re) :=
  ⟨linkFailure_right_iff a id dsts seqnos, routeError_right_iff a saddr re dsts seqnos⟩

/-- The nodes from 2 on ask for a route, one after the other, and node 0 hears of it through node 1. -/
def crowdRun (n : ℕ) : List (ℚ × AodvStep) :=
  (List.range n).flatMap fun k : ℕ =>
    [(k, .own (k + 2) (.recv (AodvNetwork.dataTo (k + 2) 1000 none 0))), (k, .deliver 1 (3 * k)), (k, .deliver 0 (3 * k + 1))]

/-- Node 0 has more routes over node 1 than a route error can list. -/
theorem route_error_overflows : ∃ steps last outs, AodvNetwork.machine.run AodvNetwork.initial steps = some (last, outs) ∧
    ¬∃ b sent, (last.node 0).linkFailure 1 (.make (fun _ => 0) fun _ => 0) = some (b, sent) ∧ LinkFailureRight (last.node 0) 1 b sent := by
  have ran : (AodvNetwork.machine.run AodvNetwork.initial (crowdRun 101)).map
      (fun done => ((done.1.node 0).rtable.filter fun rt => upOver 1 rt).length) = some 101 := by decide +kernel
  obtain ⟨⟨last, outs⟩, run, many⟩ := Option.map_eq_some_iff.mp ran
  refine ⟨_, last, outs, run, fun right => ?_⟩
  have few := ((linkFailure_right_iff (last.node 0) 1 _ _).mp right).few
  rw [many] at few
  exact absurd few (by decide)

end AODV

end Ns2
